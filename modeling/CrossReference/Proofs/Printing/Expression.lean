import CrossReference.Proofs.Printing.Quotation
import CrossReference.Proofs.Printing.Separated

namespace CrossReference.Source

open Token (sign space)

mutual

inductive Chain where
  | name (word : Word)
  | member (object : Chain) (word : Word)
  | call (callee : Chain) (args : List Expr)

inductive Expr where
  | text (value : Quoted)
  | strings (first : Quotation) (more : List (Blanks × Quotation))
  | number (value : Digits)
  | chain (value : Chain)
  | list (elements : List Expr)
  | closure (value : Expr)

end

def adjacent (more : List (Blanks × Quotation)) : List Token :=
  more.flatMap fun (gap, p) => [gap.token, p.token]

mutual

def Chain.tokens : Chain → List Token
  | .name word => [word.token]
  | .member object word => object.tokens ++ [sign .dot, word.token]
  | .call callee args => callee.tokens ++ sign .lParen :: (Expr.tokensAll args ++ [sign .rParen])

def Expr.tokens : Expr → List Token
  | .text value => [value.token]
  | .strings first more => first.token :: adjacent more
  | .number value => [value.token]
  | .chain value => value.tokens
  | .list elements => sign .lBrack :: (Expr.tokensAll elements ++ [sign .rBrack])
  | .closure value =>
    [sign .lParen, sign .rParen, space, sign .fatArrow, space] ++ value.tokens

def Expr.tokensAll : List Expr → List Token
  | [] => []
  | [e] => e.tokens
  | e :: f :: es => e.tokens ++ sign .comma :: space :: Expr.tokensAll (f :: es)

end

def Word.tree (w : Word) : Tree := .node .nameRef [.leaf w.token]

mutual

def Chain.tree : Chain → Tree
  | .name w => w.tree
  | .member object w => .node .memberExpr [object.tree, .leaf (sign .dot), w.tree]
  | .call callee args =>
    .node .callExpr
      [callee.tree,
       .node .argList
        (.leaf (sign .lParen) :: (Expr.treesAll args ++ [.leaf (sign .rParen)]))]

def Expr.tree : Expr → Tree
  | .text value => .node .stringLiteral [.leaf value.token]
  | .strings first more => .node .stringLiteral ((first.token :: adjacent more).map .leaf)
  | .number value => .node .literal [.leaf value.token]
  | .chain value => value.tree
  | .list elements =>
    .node .listLiteral
      (.leaf (sign .lBrack) :: (Expr.treesAll elements ++ [.leaf (sign .rBrack)]))
  | .closure value =>
    .node .closure
      [.node .paramList [.leaf (sign .lParen), .leaf (sign .rParen)],
       .leaf space,
       .node .exprBody [.leaf (sign .fatArrow), .leaf space, value.tree]]

def Expr.treesAll : List Expr → List Tree
  | [] => []
  | [e] => [e.tree]
  | e :: f :: es => e.tree :: .leaf (sign .comma) :: .leaf space :: Expr.treesAll (f :: es)

end

mutual

theorem Chain.tokens_tree : (c : Chain) → c.tree.tokens = c.tokens
  | .name w => rfl
  | .member object w => by
    simp [Chain.tree, Chain.tokens, Tree.tokens, Tree.tokensAll, Word.tree, object.tokens_tree]
  | .call callee args => by
    simp [Chain.tree, Chain.tokens, Tree.tokens, Tree.tokensAll, callee.tokens_tree,
      Expr.tokens_treesAll args]

theorem Expr.tokens_tree : (e : Expr) → e.tree.tokens = e.tokens
  | .text _ => rfl
  | .strings first more => Tree.tokensAll_leaves _
  | .number _ => rfl
  | .chain value => value.tokens_tree
  | .list elements => by
    simp [Expr.tree, Expr.tokens, Tree.tokens, Tree.tokensAll, Expr.tokens_treesAll elements]
  | .closure value => by
    simp [Expr.tree, Expr.tokens, Tree.tokens, Tree.tokensAll, value.tokens_tree]

theorem Expr.tokens_treesAll :
    (es : List Expr) → Tree.tokensAll (Expr.treesAll es) = Expr.tokensAll es
  | [] => rfl
  | [e] => by simp [Expr.treesAll, Expr.tokensAll, Tree.tokensAll, e.tokens_tree]
  | e :: f :: es => by
    simp [Expr.treesAll, Expr.tokensAll, Tree.tokensAll, Tree.tokens, e.tokens_tree,
      Expr.tokens_treesAll (f :: es)]

end

def Expr.written (e : Expr) : Written := ⟨e.tokens, e.tree⟩

theorem Expr.tokensAll_eq : (es : List Expr) →
    Expr.tokensAll es = Written.separated (es.map Expr.written)
  | [] => rfl
  | [_] => rfl
  | e :: f :: es => by
    simp [Expr.tokensAll, Expr.tokensAll_eq (f :: es), Written.separated, Expr.written]

theorem Expr.treesAll_eq : (es : List Expr) →
    Expr.treesAll es = Written.separatedTrees (es.map Expr.written)
  | [] => rfl
  | [_] => rfl
  | e :: f :: es => by
    simp [Expr.treesAll, Expr.treesAll_eq (f :: es), Written.separatedTrees, Expr.written]

open Token (Scans endsWord)

theorem ends_head {p : Char → Bool} {y : List Char} (hy : y.head?.any Digits.ends = true)
    (hp : [',', ')', ']', ';'].all p = true) : y.head?.any p = true := by
  obtain ⟨d, y, rfl, hd⟩ := Token.exists_of_head hy
  exact List.all_eq_true.1 hp d (List.contains_iff_mem.1 hd)

structure Token.OpensExpr (t : Token) : Prop where
  kind : t.kind ∈ [.ident, .string, .intNumber, .lBrack, .lParen]
  text : t.text.toList.head?.any (!Token.isBlank ·) = true

theorem Token.OpensExpr.isTrivia {t : Token} (h : t.OpensExpr) : t.isTrivia = false := by
  have hall : ∀ kind ∈ [TokenKind.ident, .string, .intNumber, .lBrack, .lParen],
      kind.isTrivia = false := by decide
  exact hall _ h.kind

theorem Word.opensExpr (w : Word) : w.token.OpensExpr := by
  obtain ⟨c, x, htext, hc, -⟩ := w.letters
  refine ⟨by simp, ?_⟩
  simp [htext, (Token.opens_of_isWordStart hc).1]

theorem Chain.tokens_head : (c : Chain) → ∃ t ts, c.tokens = t :: ts ∧ t.OpensExpr
  | .name w => ⟨w.token, [], rfl, w.opensExpr⟩
  | .member object w => by
    obtain ⟨t, ts, htokens, ht⟩ := object.tokens_head
    exact ⟨t, _, by rw [Chain.tokens, htokens]; rfl, ht⟩
  | .call callee args => by
    obtain ⟨t, ts, htokens, ht⟩ := callee.tokens_head
    exact ⟨t, _, by rw [Chain.tokens, htokens]; rfl, ht⟩

theorem Expr.tokens_head (e : Expr) : ∃ t ts, e.tokens = t :: ts ∧ t.OpensExpr := by
  cases e with
  | text value => exact ⟨value.token, [], rfl, by simp, by simp [Quoted.token, Token.isBlank]⟩
  | strings first more =>
    refine ⟨first.token, _, rfl, by simp, ?_⟩
    cases hmark : first.mark <;>
      simp [Quotation.token, Quotation.toList_print, hmark, QuoteMark.char, Token.isBlank]
  | number value =>
    obtain ⟨c, x, htext, hc, -⟩ := value.digits
    refine ⟨value.token, [], rfl, by simp, ?_⟩
    simp [Digits.token, htext, (Digits.opens_of_isDigit hc).1]
  | chain value => exact value.tokens_head
  | list elements => exact ⟨sign .lBrack, _, rfl, by simp, rfl⟩
  | closure value => exact ⟨sign .lParen, _, rfl, by simp, rfl⟩

theorem Expr.chars_head (e : Expr) (y : List Char) :
    (chars e.tokens ++ y).head?.any (!Token.isBlank ·) = true := by
  obtain ⟨t, ts, htokens, ht⟩ := e.tokens_head
  obtain ⟨c, x, htext, hc⟩ := Token.exists_of_head ht.text
  simpa [htokens, htext] using hc

theorem Word.scans_member (w : Word) {y : List Char} (hy : y.head?.any endsWord = true) :
    Scans (chars [sign .dot, w.token] ++ y) [sign .dot, w.token] y :=
  .cons (Token.stands_tight (by decide) (w.head_endsMark _ _)) (.cons (w.stands hy) (.done _))

theorem Expr.scans_closure {e : Expr} {y : List Char} (h : Scans (chars e.tokens ++ y) e.tokens y) :
    Scans (chars (Expr.closure e).tokens ++ y) (Expr.closure e).tokens y := by
  refine .cons (Token.stands_loose (by decide) _) (.cons (Token.stands_loose (by decide) _) ?_)
  refine .cons (Token.stands_space rfl) (.cons (Token.stands_loose (by decide) _) ?_)
  exact .cons (Token.stands_space (e.chars_head y)) h

theorem adjacent_head {more : List (Blanks × Quotation)} {y : List Char}
    (hy : y.head?.any Digits.ends = true) :
    (chars (adjacent more) ++ y).head?.any (!Token.isQuote ·) = true := by
  cases more with
  | nil => exact ends_head hy rfl
  | cons e more =>
    obtain ⟨c, x, htext, hall⟩ := e.1.blanks
    have hquote : Token.isQuote c = false := by
      have hc : Token.isBlank c = true := List.all_eq_true.1 hall c (by simp)
      have hother : c ∉ ['\'', '"'] := Token.not_mem_of_all hc (by decide)
      simpa [Token.isQuote] using hother
    simp [adjacent, htext, hquote]

theorem scans_adjacent (more : List (Blanks × Quotation)) {y : List Char}
    (hy : y.head?.any Digits.ends = true) :
    Scans (chars (adjacent more) ++ y) (adjacent more) y := by
  induction more with
  | nil => exact .done y
  | cons e more ih =>
    have hstart :
        (chars (e.2.token :: adjacent more) ++ y).head?.any (!Token.isBlank ·) = true := by
      cases hmark : e.2.mark <;>
        simp [Quotation.token, Quotation.toList_print, hmark, QuoteMark.char, Token.isBlank]
    exact .cons (e.1.stands hstart) (.cons (e.2.stands (adjacent_head hy)) ih)

mutual

theorem Chain.scans : (c : Chain) → {y : List Char} → y.head?.any endsWord = true →
    Scans (chars c.tokens ++ y) c.tokens y
  | .name w, _, hy => .cons (w.stands hy) (.done _)
  | .member object w, _, hy => .join (object.scans rfl) (w.scans_member hy)
  | .call callee args, y, _ => by
    refine .join (callee.scans rfl) (.cons (Token.stands_loose (by decide) _) ?_)
    rw [Expr.tokensAll_eq]
    exact .join (Written.scans_separated (Expr.scansAll args) rfl)
      (.cons (Token.stands_loose (by decide) _) (.done y))

theorem Expr.scans : (e : Expr) → {y : List Char} → y.head?.any Digits.ends = true →
    Scans (chars e.tokens ++ y) e.tokens y
  | .text value, _, hy => .cons (value.stands (ends_head hy rfl)) (.done _)
  | .strings first more, _, hy => .cons (first.stands (adjacent_head hy)) (scans_adjacent more hy)
  | .number value, _, hy => .cons (value.stands hy) (.done _)
  | .chain value, _, hy => value.scans (ends_head hy rfl)
  | .list elements, y, _ => by
    refine .cons (Token.stands_loose (by decide) _) ?_
    rw [Expr.tokensAll_eq]
    exact .join (Written.scans_separated (Expr.scansAll elements) rfl)
      (.cons (Token.stands_loose (by decide) _) (.done y))
  | .closure value, _, hy => Expr.scans_closure (value.scans hy)

theorem Expr.scansAll : (es : List Expr) → ∀ w ∈ es.map Expr.written, Scanned w.tokens
  | [] => by simp
  | e :: es => List.forall_mem_cons.2 ⟨⟨e.chars_head, fun _ => e.scans⟩, Expr.scansAll es⟩

end

theorem Expr.scanned (e : Expr) : Scanned e.tokens := ⟨e.chars_head, fun _ => e.scans⟩

open Lookahead Step Grammar

section Ahead

variable {t : Token} {ts : List Token}

theorem suffix?_ends (h : t.EndsExpr) : suffix? (t :: ts) = none := by
  simp only [Token.EndsExpr, List.mem_cons, List.not_mem_nil, or_false] at h
  rcases h with h | h | h | h <;> simp [suffix?, h]

theorem atBinaryOperator_ends (h : t.EndsExpr) : atBinaryOperator (t :: ts) = false := by
  simp only [Token.EndsExpr, List.mem_cons, List.not_mem_nil, or_false] at h
  rcases h with h | h | h | h <;> simp [atBinaryOperator, startsWithAnyWord, word?, h]

theorem atPrefixOperator_opens (h : t.OpensExpr) : atPrefixOperator (t :: ts) = false := by
  have hkind := h.kind
  simp only [List.mem_cons, List.not_mem_nil, or_false] at hkind
  rcases hkind with h | h | h | h | h <;> simp [atPrefixOperator, startsWithOperator, h]

end Ahead

def suffixes : Act :=
  .repeatWhile (fun us => (suffix? us).isSome) (.look fun us => (suffix? us).getD .done)

def operandBody : Act := .look fun ts =>
  match primary? ts with
  | some primary => inOrder [primary, suffixes]
  | none => missingExpr

section Rules

variable {xs ys : List Tree} {ts us : List Token}

theorem reads_nameRef (w : Word) :
    Leads body nameRef xs (w.token :: ts) (xs ++ [w.tree]) ts := .node rfl (.take rfl)

theorem reads_suffix {s : Act} (hs : suffix? (significant ts) = some s)
    (h : Leads body s xs ts ys us) {zs : List Tree} {vs : List Token}
    (hrest : Leads body suffixes ys us zs vs) :
    Leads body suffixes xs ts zs vs := by
  refine .repeatTurn (by rw [hs]; rfl) (.look ?_) hrest
  rwa [hs]

theorem reads_suffixes_end {f : Token} (hf : f.EndsExpr) :
    Leads body suffixes xs (f :: ts) xs (f :: ts) := by
  refine .repeatStop ?_
  rw [significant_next hf.isTrivia, suffix?_ends hf]
  rfl

theorem reads_strings_end {f : Token} (hf : f.EndsExpr) :
    Leads body (.repeatWhile (startsWith .string) .take) xs (f :: ts) xs (f :: ts) := by
  refine .repeatStop ?_
  rw [significant_next hf.isTrivia]
  simp only [Token.EndsExpr, List.mem_cons, List.not_mem_nil, or_false] at hf
  rcases hf with h | h | h | h <;> simp [h]

theorem reads_adjacent (more : List (Blanks × Quotation)) {f : Token} (hf : f.EndsExpr) :
    Leads body (.repeatWhile (startsWith .string) .take) xs (adjacent more ++ f :: ts)
      (xs ++ (adjacent more).map .leaf) (f :: ts) := by
  induction more generalizing xs with
  | nil => simpa [adjacent] using reads_strings_end hf
  | cons e more ih =>
    have hrest : Leads body (.repeatWhile (startsWith .string) .take) _ (adjacent more ++ f :: ts)
        (xs ++ [.leaf e.1.token, .leaf e.2.token] ++ (adjacent more).map .leaf) (f :: ts) := ih
    have hturn : Leads body (.repeatWhile (startsWith .string) .take) xs
        (e.1.token :: e.2.token :: (adjacent more ++ f :: ts)) _ _ :=
      .repeatTurn rfl (.take_after rfl rfl) hrest
    simpa [adjacent] using hturn

theorem reads_primary {s : Act} (hs : primary? (significant ts) = some s)
    (h : Leads body s [] ts xs us) {zs : List Tree} {vs : List Token}
    (hrest : Leads body suffixes xs us zs vs) :
    Leads body operandBody [] ts zs vs := by
  refine .look ?_
  rw [hs]
  exact .andThen h hrest

end Rules

def Expr.Reads (e : Expr) : Prop :=
  ∀ ⦃f : Token⦄ ⦃rest : List Token⦄, f.EndsExpr →
    Leads body operandBody [] (e.tokens ++ f :: rest) [e.tree] (f :: rest)

def exprBody : Act := inOrder
  [.call .unary,
   .repeatWhile atBinaryOperator <| .wrap .binExpr <| .look fun ts =>
    if startsWith .ident ts then
      inOrder [.take, eat .bang, given (startsWith .ident) (.call .typeRef)]
    else inOrder [.take, .call .unary]]

theorem Chain.second_ne_colon : (c : Chain) → {rest : List Token} →
    kind? (significant rest) ≠ some .colon →
    kindAt? 1 (significant (c.tokens ++ rest)) ≠ some .colon
  | .name w, rest, hrest => by
    rw [Chain.tokens, List.singleton_append, significant_next (t := w.token) rfl, kindAt?_next]
    exact hrest
  | .member object w, rest, _ => by
    rw [Chain.tokens, List.append_assoc]
    refine object.second_ne_colon ?_
    simp [significant_next (t := sign .dot) rfl]
  | .call callee args, rest, _ => by
    rw [Chain.tokens, List.append_assoc]
    refine callee.second_ne_colon ?_
    simp [significant_next (t := sign .lParen) rfl]

namespace Expr

variable {e : Expr} {es : List Expr} {f : Token} {rest : List Token} {xs : List Tree}

theorem Reads.exprBody (he : e.Reads) (hf : f.EndsExpr) :
    Leads body Source.exprBody [] (e.tokens ++ f :: rest) [e.tree] (f :: rest) := by
  have hoperand : Leads body operandBody [] (e.tokens ++ f :: rest) [e.tree] (f :: rest) := he hf
  obtain ⟨t, ts, htokens, ht⟩ := e.tokens_head
  rw [htokens, List.cons_append] at hoperand ⊢
  refine .andThen (.call (.look ?_)) (.repeatStop ?_)
  · rw [significant_next ht.isTrivia, atPrefixOperator_opens ht]
    exact .call (.group ht.isTrivia hoperand)
  · rw [significant_next hf.isTrivia]
    exact atBinaryOperator_ends hf

theorem Reads.expr_gap {gap : List Token} (hgap : ∀ g ∈ gap, g.isTrivia) (he : e.Reads)
    (hf : f.EndsExpr) :
    Leads body (.call .expr) xs (gap ++ (e.tokens ++ f :: rest)) (xs ++ gap.map .leaf ++ [e.tree])
      (f :: rest) := by
  have hbody : Leads body Source.exprBody [] (e.tokens ++ f :: rest) _ _ := he.exprBody hf
  obtain ⟨t, ts, htokens, ht⟩ := e.tokens_head
  rw [htokens, List.cons_append] at hbody ⊢
  exact .call (.group_gap hgap ht.isTrivia hbody)

theorem Reads.expr (he : e.Reads) (hf : f.EndsExpr) :
    Leads body (.call .expr) xs (e.tokens ++ f :: rest) (xs ++ [e.tree]) (f :: rest) := by
  have h : Leads body (.call .expr) xs ([] ++ (e.tokens ++ f :: rest)) _ _ :=
    he.expr_gap (by simp) hf
  simpa using h

theorem Reads.expr_after {g : Token} (hg : g.isTrivia = true) (he : e.Reads) (hf : f.EndsExpr) :
    Leads body (.call .expr) xs (g :: (e.tokens ++ f :: rest)) (xs ++ [.leaf g, e.tree])
      (f :: rest) := by
  have h : Leads body (.call .expr) xs ([g] ++ (e.tokens ++ f :: rest)) _ _ :=
    he.expr_gap (by simpa using hg) hf
  simpa using h

theorem significant_tokens {gap : List Token} (hgap : ∀ g ∈ gap, g.isTrivia) (e : Expr)
    (rest : List Token) :
    ∃ t ts, t.OpensExpr ∧ significant (gap ++ (e.tokens ++ rest)) = t :: ts := by
  obtain ⟨t, ts, htokens, ht⟩ := e.tokens_head
  exact ⟨t, _, ht, by rw [htokens, List.cons_append, significant_gap hgap ht.isTrivia]⟩

theorem moved {gap : List Token} (e : Expr) (rest : List Token) :
    rest.length ≠ (gap ++ (e.tokens ++ rest)).length := by
  obtain ⟨t, ts, htokens, -⟩ := e.tokens_head
  simp [htokens]
  omega

theorem followedBy_colon (e : Expr) (hf : f.EndsExpr) :
    followedBy .ident .colon (significant (e.tokens ++ f :: rest)) = false := by
  cases e with
  | text value => simp [tokens, significant_next (t := value.token) rfl, followedBy]
  | strings first more => simp [tokens, significant_next (t := first.token) rfl, followedBy]
  | number value => simp [tokens, significant_next (t := value.token) rfl, followedBy]
  | chain value =>
    have hfollow : kind? (significant (f :: rest)) ≠ some .colon := by
      rw [significant_next hf.isTrivia]
      rintro hkind
      simp only [kind?_next, Option.some.injEq] at hkind
      simp [Token.EndsExpr, hkind] at hf
    have hsecond := value.second_ne_colon hfollow
    simp [tokens, followedBy, hsecond]
  | list elements => simp [tokens, significant_next (t := sign .lBrack) rfl, followedBy]
  | closure value => simp [tokens, significant_next (t := sign .lParen) rfl, followedBy]

theorem Reads.argument (he : e.Reads) : e.written.ReadBy argument := by
  intro gap rest f xs hgap hf
  have hnamed :
      followedBy .ident .colon (significant (gap ++ (e.tokens ++ f :: rest))) = false := by
    have hsame : significant (gap ++ (e.tokens ++ f :: rest)) =
        significant (e.tokens ++ f :: rest) := by
      rw [significant, List.filter_append]
      exact congrArg (· ++ _) (significant_eq_nil hgap)
    rw [hsame, followedBy_colon e hf]
  refine .look ?_
  dsimp only [written]
  rw [hnamed]
  exact .insist (he.expr_gap hgap hf) (e.moved _)

theorem Reads.element (he : e.Reads) : e.written.ReadBy element := by
  intro gap rest f xs hgap hf
  obtain ⟨t, ts, ht, hahead⟩ := significant_tokens hgap e (f :: rest)
  have hkind := ht.kind
  simp only [List.mem_cons, List.not_mem_nil, or_false] at hkind
  dsimp only [written]
  refine .andThen (.skip ?_) (.andThen (.skip ?_) ?_)
  · rw [hahead]
    rcases hkind with h | h | h | h | h <;> simp [h]
  · rw [hahead]
    rcases hkind with h | h | h | h | h <;> simp [h]
  · exact .insist (he.expr_gap hgap hf) (e.moved _)

theorem passes_before {c : TokenKind} (hc : c ∈ [.rParen, .rBrack]) (e : Expr) :
    e.written.Passes (before [c]) := by
  intro gap us hgap
  obtain ⟨t, ts, ht, hahead⟩ := significant_tokens hgap e us
  have hkind := ht.kind
  have hne : t.kind ≠ c := by
    rintro rfl
    simp only [List.mem_cons, List.not_mem_nil, or_false] at hc
    rcases hc with h | h <;> simp [h] at hkind
  simp [written, hahead, before_cons, hne]

theorem leads_bracketed {o c : TokenKind} {item : Act} (ho : o.isTrivia = false)
    (hc : c ∈ [.rParen, .rBrack]) (hitem : ∀ e ∈ es, e.written.ReadBy item) :
    Leads body (inOrder [expect o, .commaList (before [c]) item, expect c]) xs
      (sign o :: (tokensAll es ++ [sign c]) ++ rest)
      (xs ++ .leaf (sign o) :: (treesAll es ++ [.leaf (sign c)])) rest := by
  have hclose : (sign c).EndsExpr ∧ c ≠ .comma := by
    simp only [List.mem_cons, List.not_mem_nil, or_false] at hc
    rcases hc with rfl | rfl <;> exact ⟨Token.endsExpr_sign (by decide), by decide⟩
  obtain ⟨hends, hlast⟩ := hclose
  have htokens : sign o :: (tokensAll es ++ [sign c]) ++ rest =
      sign o :: (Written.separated (es.map written) ++ sign c :: rest) := by
    simp [tokensAll_eq]
  have htrees : xs ++ .leaf (sign o) :: (treesAll es ++ [.leaf (sign c)]) =
      xs ++ [.leaf (sign o)] ++ Written.separatedTrees (es.map written) ++ [.leaf (sign c)] := by
    simp [treesAll_eq]
  rw [htokens, htrees]
  refine .andThen (reads_expect ho rfl) (.andThen ?_ (reads_expect hends.isTrivia rfl))
  refine Written.leads_commaList hends hlast (fun _ => by simp [before]) ?_ ?_
  · exact List.forall_mem_map.2 fun e _ => e.passes_before hc
  · exact List.forall_mem_map.2 hitem

theorem leads_argList (hargs : ∀ e ∈ es, e.Reads) :
    Leads body (.call .argList) xs
      (sign .lParen :: (tokensAll es ++ [sign .rParen]) ++ rest)
      (xs ++
        [.node .argList (.leaf (sign .lParen) :: (treesAll es ++ [.leaf (sign .rParen)]))])
      rest :=
  .call (.node rfl (leads_bracketed rfl (by simp) fun e he => (hargs e he).argument))

theorem leads_list (hes : ∀ e ∈ es, e.Reads) :
    Leads body (.call (.collection .list)) xs ((Expr.list es).tokens ++ rest)
      (xs ++ [(Expr.list es).tree]) rest := by
  have hitems : Leads body _ [] (sign .lBrack :: (tokensAll es ++ [sign .rBrack]) ++ rest) _ rest :=
    leads_bracketed rfl (by simp) fun e he => (hes e he).element
  exact .call (.node rfl (.andThen (.look .done) (.andThen (.look .done) hitems)))

theorem Reads.closure (he : e.Reads) : (Expr.closure e).Reads := by
  intro f rest hf
  have hvalue : Leads body (inOrder [.take, .call .expr, .done]) []
      (sign .fatArrow :: space :: (e.tokens ++ f :: rest))
      [.leaf (sign .fatArrow), .leaf space, e.tree] (f :: rest) :=
    .andThen (.take rfl) (.andThen (he.expr_after rfl hf) .done)
  have hbody {xs : List Tree} : Leads body (.call (.functionBody true)) xs
      (space :: sign .fatArrow :: space :: (e.tokens ++ f :: rest))
      (xs ++ [.leaf space, .node .exprBody [.leaf (sign .fatArrow), .leaf space, e.tree]])
      (f :: rest) := by
    exact .call (.andThen (.pass rfl) (.look (.node_after rfl rfl hvalue)))
  have hparams : Leads body (.call .paramList) [] (sign .lParen :: (Written.separated [] ++
      sign .rParen :: space :: sign .fatArrow :: space :: (e.tokens ++ f :: rest))) _ _ :=
    Written.leads_paramList (by simp) (by simp)
  exact reads_primary rfl (.node rfl (.andThen hparams hbody)) (reads_suffixes_end hf)

end Expr

mutual

theorem Chain.reads : (c : Chain) → {rest us : List Token} → {ys : List Tree} →
    Leads body suffixes [c.tree] rest ys us →
    Leads body operandBody [] (c.tokens ++ rest) ys us
  | .name w, _, _, _, h => reads_primary rfl (reads_nameRef w) h
  | .member object w, _, _, _, h => by
    rw [Chain.tokens, List.append_assoc]
    exact object.reads (reads_suffix rfl (.wrap (.andThen (.take rfl) (reads_nameRef w))) h)
  | .call callee args, _, _, _, h => by
    rw [Chain.tokens, List.append_assoc]
    exact callee.reads (reads_suffix rfl (.wrap (Expr.leads_argList (Expr.readsAll args))) h)

theorem Expr.reads : (e : Expr) → e.Reads
  | .text _ => fun _ _ hf =>
    reads_primary rfl (.node rfl (.repeatTurn rfl (.take rfl) (reads_strings_end hf)))
      (reads_suffixes_end hf)
  | .strings _ more => fun _ _ hf =>
    reads_primary rfl (.node rfl (.repeatTurn rfl (.take rfl) (reads_adjacent more hf)))
      (reads_suffixes_end hf)
  | .number _ => fun _ _ hf =>
    reads_primary rfl (.node rfl (.take rfl)) (reads_suffixes_end hf)
  | .chain value => fun _ _ hf => value.reads (reads_suffixes_end hf)
  | .list elements => fun _ _ hf =>
    reads_primary rfl (Expr.leads_list (Expr.readsAll elements)) (reads_suffixes_end hf)
  | .closure value => value.reads.closure

theorem Expr.readsAll : (es : List Expr) → ∀ e ∈ es, e.Reads
  | [] => by simp
  | e :: es => List.forall_mem_cons.2 ⟨e.reads, Expr.readsAll es⟩

end

end CrossReference.Source
