import CrossReference.Proofs.Import.Insertion

/-!
Adding the same import twice. The first line is found again by the second one unless a header at the
end of the file takes it in.
-/

namespace CrossReference.Import

open Source

section Library

variable {uri : String}

def quotes (uri text : String) : Bool := text == "'" ++ uri ++ "'" || text == "\"" ++ uri ++ "\""

theorem find?_quoteFirst (seg : List Token) :
    ((quoteFirst seg).find? isLiteral).map Tree.text =
      ((significant seg).head?.filter (·.kind == .string)).map Token.text := by
  have hleaves (ts : List Token) : (ts.map Tree.leaf).find? isLiteral = none := by
    rw [List.find?_eq_none]
    intro tree ht
    obtain ⟨t, _, rfl⟩ := List.mem_map.1 ht
    exact Bool.false_ne_true
  induction seg with
  | nil => rfl
  | cons t seg ih =>
    rw [quoteFirst]
    cases ht : t.isTrivia with
    | true =>
      have hleaf : (Tree.leaf t :: quoteFirst seg).find? isLiteral =
          (quoteFirst seg).find? isLiteral := rfl
      simpa [significant, ht, hleaf] using ih
    | false =>
      have hhead : (significant (t :: seg)).head? = some t := by simp [significant, ht]
      by_cases hs : t.kind = .string
      · simp [hhead, hs, Option.filter, isLiteral, Tree.text, Tree.tokens, Tree.tokensAll, spelling]
      · rw [hhead, if_neg Bool.false_ne_true, if_neg hs, hleaves]
        simp [Option.filter, hs]

theorem imports_headerTree (k : Token) (seg : List Token) :
    imports uri (headerTree k seg) = (k.kind == .importKw &&
      ((significant seg).head?.filter (·.kind == .string)).any (quotes uri ·.text)) := by
  rw [headerTree]
  by_cases hk : k.kind = .importKw
  · have hlibrary : libraryOf? (.node .importDirective (.leaf k :: quoteFirst seg)) =
        ((quoteFirst seg).find? isLiteral).map Tree.text := rfl
    rw [if_pos hk, imports, hlibrary, find?_quoteFirst]
    cases (significant seg).head?.filter (·.kind == .string) <;> simp [hk, quotes]
  · rw [if_neg hk]
    simp [imports, libraryOf?, hk]

theorem toList_of_quotes {text : String} (h : quotes uri text) :
    ∃ q, text.toList = q :: uri.toList ++ [q] ∧ (q = '\'' ∨ q = '"') := by
  rcases (by simpa [quotes] using h : text = "'" ++ uri ++ "'" ∨ text = "\"" ++ uri ++ "\"")
    with rfl | rfl
  · exact ⟨'\'', by simp, .inl rfl⟩
  · exact ⟨'"', by simp, .inr rfl⟩

theorem quotes_eq_false_of_newline {text : String} (huri : Plain uri) (h : '\n' ∈ text.toList) :
    quotes uri text = false := by
  rw [← Bool.not_eq_true]
  intro hquotes
  obtain ⟨q, htext, hq⟩ := toList_of_quotes hquotes
  rw [htext, List.mem_append, List.mem_cons, List.mem_singleton] at h
  rcases h with (rfl | h) | rfl
  · simp at hq
  · exact (huri.2 _ h).2.2 rfl
  · simp at hq

theorem infix_of_mem {tree : Tree} {trees : List Tree} (h : tree ∈ trees) :
    chars tree.tokens <:+: chars (Tree.tokensAll trees) := by
  obtain ⟨pre, post, rfl⟩ := List.append_of_mem h
  refine ⟨chars (Tree.tokensAll pre), chars (Tree.tokensAll post), ?_⟩
  simp [Tree.tokensAll_append, Tree.tokensAll]

theorem infix_of_imports {tree : Tree} (h : imports uri tree) :
    ∃ q, q :: uri.toList ++ [q] <:+: chars tree.tokens ∧ (q = '\'' ∨ q = '"') := by
  obtain ⟨text, htext, hquotes⟩ : ∃ text, libraryOf? tree = some text ∧ quotes uri text := by
    rw [imports] at h
    cases hl : libraryOf? tree with
    | none => simp [hl] at h
    | some text => exact ⟨text, rfl, by simpa [hl, quotes] using h⟩
  obtain ⟨children, literal, rfl, hmem, rfl⟩ : ∃ children literal,
      tree = .node .importDirective children ∧ literal ∈ children ∧ literal.text = text := by
    rw [libraryOf?.eq_def] at htext
    split at htext
    · obtain ⟨literal, hfind, hliteral⟩ := Option.map_eq_some_iff.1 htext
      exact ⟨_, literal, rfl, List.mem_of_find?_eq_some hfind, hliteral⟩
    · cases htext
  obtain ⟨q, hq, hquote⟩ := toList_of_quotes hquotes
  rw [Tree.text, toList_spelling] at hq
  refine ⟨q, ?_, hquote⟩
  rw [← hq]
  exact infix_of_mem hmem

theorem not_infix_lineRest {q : Char} (hq : q = '\'' ∨ q = '"') :
    ¬q :: uri.toList ++ [q] <:+: lineRest uri := by
  rintro ⟨pre, post, heq⟩
  have hlength := congrArg List.length heq
  simp only [lineRest, List.length_append, List.length_cons, List.length_nil] at hlength
  have hline : lineRest uri = uri.toList ++ ['\''] ++ [';'] ++ ['\n'] := by simp [lineRest]
  rw [hline] at heq
  cases post with
  | nil =>
    rw [List.append_nil, ← List.append_assoc] at heq
    obtain ⟨_, hlast⟩ := List.append_inj' heq rfl
    obtain rfl : q = '\n' := by simpa using hlast
    simp at hq
  | cons c post =>
    rw [List.length_cons] at hlength
    obtain rfl : post = [] := List.length_eq_zero_iff.1 (by omega)
    obtain ⟨hinit, _⟩ := List.append_inj' heq rfl
    rw [← List.append_assoc] at hinit
    obtain ⟨_, hsemi⟩ := List.append_inj' hinit rfl
    obtain rfl : q = ';' := by simpa using hsemi
    simp at hq

theorem imports_eq_false_of_rest {ts : List Token} (h : chars ts <:+: lineRest uri) {tree : Tree}
    (htree : tree ∈ (Parse.ofTokens ts).items) : imports uri tree = false := by
  rw [← Bool.not_eq_true]
  intro himports
  obtain ⟨q, hq, hquote⟩ := infix_of_imports himports
  have htokens : Tree.tokensAll (Parse.ofTokens ts).items = ts := Parse.tokens_tree ts
  have hinfix := infix_of_mem htree
  rw [htokens] at hinfix
  exact not_infix_lineRest hquote ((hq.trans hinfix).trans h)

end Library

theorem scan_absorbed {text uri : String} (huri : Plain uri) {x : List Char} {ts : List Token}
    {last : Token} (hx : (text ++ lineEnd text).toList = x ++ ['\n'])
    (hscan : Token.Scans (x ++ ['\n']) (ts ++ [last]) []) (hlast : last.kind = .errorToken) :
    ∃ e rest, Token.scan (text ++ lineEnd text ++ (line uri ++ "\n")) = ts ++ e :: rest ∧
      (e.kind = .string ∨ e.kind = .errorToken) ∧ '\n' ∈ e.text.toList ∧
      chars rest <:+: lineRest uri := by
  obtain ⟨c, cs, hopen, htext⟩ : ∃ c cs, Token.Unfinished c cs ∧ last.text.toList = c :: cs := by
    rcases hscan.last_newline with hk | ⟨_, h⟩
    · simp [hk] at hlast
    · exact h
  obtain ⟨d, uri', huri'⟩ : ∃ d uri', uri.toList = d :: uri' := by
    cases hu : uri.toList with
    | nil => exact absurd (String.toList_eq_nil_iff.1 hu) huri.1
    | cons d uri' => exact ⟨d, uri', rfl⟩
  have hline : lineRest uri = d :: (uri' ++ ['\'', ';', '\n']) := by simp [lineRest, huri']
  have hd : d ≠ '\'' := (huri.2 d (by simp [huri'])).1
  obtain ⟨hle, hkind⟩ := hopen.reach_import hd (uri' ++ ['\'', ';', '\n'])
  rw [← hline, List.append_assoc, ← toList_line] at hle hkind
  have hend : Token.EndsInStop (x ++ ['\n']) := by
    intro c hc
    obtain rfl : '\n' = c := by simpa using hc
    decide
  have hext := hscan.extend hend (line uri ++ "\n").toList
  rw [htext, List.cons_append] at hext
  have hall := hext.append (.next (Token.scans_scanChars _))
  rw [← hx, ← String.toList_append] at hall
  refine ⟨_, _, scan_of_scans hall, hkind, ?_, ?_⟩
  · have hnewline : '\n' ∈ c :: cs := by
      have hchars := congrArg List.getLast? hscan.chars_eq
      refine List.mem_of_getLast? ?_
      simpa [htext, List.getLast?_append, List.getLast?_cons] using hchars.symm
    rw [Token.toList_text_first, List.take_append, List.take_of_length_le (by omega)]
    exact List.mem_append_left _ hnewline
  · have hhead : Token.importHead.length = 8 := rfl
    rw [Token.chars_scanChars]
    rw [toList_line] at hle ⊢
    rw [List.drop_append, List.drop_append, List.drop_of_length_le (by omega),
      List.drop_of_length_le (by omega)]
    exact (List.drop_suffix _ _).isInfix

theorem significant_append (ts us : List Token) :
    significant (ts ++ us) = significant ts ++ significant us := List.filter_append ..

theorem any_leaves (uri : String) (ts : List Token) :
    (ts.map Tree.leaf).any (imports uri) = false := by
  rw [List.any_map]
  exact List.any_eq_false.2 fun t _ => Bool.false_ne_true

section Open

variable {uri : String} {gap seg trail pre es rest : List Token} {k e e' : Token}

theorem any_openHeader (h : OpenHeader gap k seg trail) :
    (Parse.ofTokens (gap ++ k :: (seg ++ trail))).items.any (imports uri) =
      imports uri (headerTree k seg) := by
  have hseg : HeaderBody k seg trail 1 :=
    .unclosed h.free h.trimmed (.inl (significant_eq_nil h.trail_trivia))
  rw [(Parse.ofTokens_header h.opens h.gap_trivia hseg).1, List.any_append, List.any_cons,
    Parse.ofTokens_trivia h.trail_trivia, any_leaves, any_leaves, Bool.false_or, Bool.or_false]

theorem any_absorbed (huri : Plain uri) (h : OpenHeader gap k seg trail)
    (heq : seg ++ trail = pre ++ e :: es) (he : e.kind = .errorToken)
    (he' : e'.kind = .string ∨ e'.kind = .errorToken) (hnewline : '\n' ∈ e'.text.toList)
    (hrest : chars rest <:+: lineRest uri) :
    (Parse.ofTokens (gap ++ k :: (pre ++ e' :: rest))).items.any (imports uri) =
      imports uri (headerTree k seg) := by
  obtain ⟨more, last, n, rfl, hmore⟩ := exists_headerBody k rest
  have hpre : ∀ t ∈ pre, (stops k).contains t.kind = false := by
    intro t ht
    exact h.stops_free t (heq ▸ List.mem_append_left _ ht)
  have hstop : (stops k).contains e'.kind = false := by
    rw [← Bool.not_eq_true]
    intro hstop
    rcases kind_of_mem_stops hstop with hk | ⟨_, hk⟩ <;> rcases he' with he' | he' <;>
      simp [he'] at hk
  have hsig : e.isTrivia = false := by simp [Token.isTrivia, he, TokenKind.isTrivia]
  have hsig' : e'.isTrivia = false := by
    rcases he' with he' | he' <;> simp [Token.isTrivia, he', TokenKind.isTrivia]
  have hseg := (hmore.cons hstop hsig').append pre hpre (by simp)
  have htokens : gap ++ k :: (pre ++ e' :: (more ++ last)) =
      gap ++ k :: (pre ++ e' :: more ++ last) := by simp
  have hlast : (Parse.ofTokens last).items.any (imports uri) = false := by
    refine List.any_eq_false.2 fun tree htree => ?_
    have hinfix : chars last <:+: lineRest uri := by
      rw [chars_append] at hrest
      exact (List.suffix_append _ _).isInfix.trans hrest
    rw [imports_eq_false_of_rest hinfix htree]
    exact Bool.false_ne_true
  rw [htokens, (Parse.ofTokens_header h.opens h.gap_trivia hseg).1, List.any_append, List.any_cons,
    any_leaves, hlast, Bool.false_or, Bool.or_false, imports_headerTree, imports_headerTree]
  congr 1
  -- The first significant token is the same in both, or it is the open token.
  have hold : significant seg = significant pre ++ e :: significant es := by
    have hwhole := congrArg significant heq
    rw [significant_append, significant_append, significant_eq_nil h.trail_trivia,
      List.append_nil] at hwhole
    simpa [significant, hsig] using hwhole
  have hnew : significant (pre ++ e' :: more) = significant pre ++ e' :: significant more := by
    rw [significant_append]
    simp [significant, hsig']
  rw [hold, hnew]
  cases significant pre with
  | cons t ts => rfl
  | nil =>
    have hquotes := quotes_eq_false_of_newline huri hnewline
    rcases he' with he' | he' <;> simp [Option.filter, he, he', hquotes]

theorem exists_trail {head ts : List Token} {last : Token} (h : OpenHeader gap k seg trail)
    (hends : Token.LineEnds (head ++ (gap ++ k :: (seg ++ trail))) ts last)
    (hlast : last.kind = .whitespace) :
    ∃ trail', (∀ g ∈ trail', g.isTrivia) ∧
      ts ++ [last] = head ++ (gap ++ k :: (seg ++ trail')) := by
  cases hends with
  | fresh => exact ⟨trail ++ [last], forall_mem_append_singleton h.trail_trivia hlast, by simp⟩
  | @merged _ w _ heq hw =>
    cases hg : trail.getLast? with
    | some g =>
      obtain ⟨trail, rfl⟩ := List.getLast?_eq_some_iff.1 hg
      refine ⟨trail ++ [last], forall_mem_append_singleton
        (fun g hg => h.trail_trivia g (List.mem_append_left _ hg)) hlast, ?_⟩
      have hsplit : head ++ (gap ++ k :: (seg ++ trail)) ++ [g] = ts ++ [w] := by simpa using heq
      rw [← (List.append_inj' hsplit rfl).1]
      simp
    | none =>
      obtain rfl := List.getLast?_eq_none_iff.1 hg
      have hw' : w.isTrivia = false := by
        have hend := congrArg List.getLast? heq
        cases hs : seg.getLast? with
        | none =>
          obtain rfl := List.getLast?_eq_none_iff.1 hs
          obtain rfl : k = w := by simpa [List.getLast?_append] using hend
          exact isTrivia_of_opensHeader h.opens
        | some u =>
          obtain rfl : u = w := by simpa [List.getLast?_append, List.getLast?_cons, hs] using hend
          exact h.trimmed u hs
      simp [isTrivia_whitespace hw] at hw'
  | absorbed _ _ _ herror => simp [hlast] at herror

theorem exists_before {head ts : List Token} (h : k.kind.opensHeader)
    (heq : head ++ (gap ++ k :: (seg ++ trail)) = ts ++ e :: es) (he : e.kind = .errorToken)
    (hes : ∀ t ∈ es, t.kind = .string ∨ t.kind = .errorToken) :
    ∃ pre, ts = head ++ (gap ++ k :: pre) ∧ seg ++ trail = pre ++ e :: es := by
  have hk : k ∉ e :: es := by
    intro hk
    rcases List.mem_cons.1 hk with rfl | hk
    · simp [he, TokenKind.opensHeader] at h
    · rcases hes k hk with hk | hk <;> simp [hk, TokenKind.opensHeader] at h
  rw [← List.append_assoc] at heq
  rcases List.append_eq_append_iff.1 heq with ⟨mid, hts, hmid⟩ | ⟨mid, _, hmid⟩
  · cases mid with
    | nil =>
      obtain ⟨rfl, _⟩ := List.cons.inj hmid
      exact absurd List.mem_cons_self hk
    | cons t mid =>
      obtain ⟨rfl, htail⟩ := List.cons.inj hmid
      exact ⟨mid, by simpa using hts, htail⟩
  · exact absurd (hmid ▸ List.mem_append_right mid List.mem_cons_self) hk

end Open

def isUnclosed (item : Node) : Bool :=
  item.kind == .directive && item.tree.tokens.getLast?.any (·.kind != .semicolon)

/-- A file of headers alone whose last one takes in what is added: an export or a library name that
has no semicolon, or a header that ends inside a comment or a string. -/
def Absorbs (text : String) : Prop :=
  (∀ item ∈ (parse text).root.children, isHeader item) ∧
  ((∃ item ∈ (parse text).root.children, isUnclosed item) ∨
    (Token.scan (text ++ lineEnd text)).getLast?.any (·.kind == .errorToken))

instance (text : String) : Decidable (Absorbs text) := inferInstanceAs (Decidable (_ ∧ _))

def leftOpen : Tree → Bool
  | .node .directive children => (Tree.tokensAll children).getLast?.any (·.kind != .semicolon)
  | _ => false

theorem isUnclosed_eq (n : Node) : isUnclosed n = leftOpen n.tree := by
  obtain ⟨⟨kind, children, start, index⟩, above⟩ := n
  cases kind <;> rfl

theorem absorbs_iff {text : String} : Absorbs text ↔
    (∀ t ∈ nodes (parse text), opensHead t) ∧
    ((∃ t ∈ nodes (parse text), leftOpen t) ∨
      (Token.scan (text ++ lineEnd text)).getLast?.any (·.kind == .errorToken)) := by
  have hleft : (∃ item ∈ (parse text).root.children, isUnclosed item) ↔
      ∃ t ∈ nodes (parse text), leftOpen t := by
    constructor
    · rintro ⟨item, hitem, hopen⟩
      exact ⟨item.tree, List.mem_map_of_mem hitem, isUnclosed_eq item ▸ hopen⟩
    · rintro ⟨t, ht, hopen⟩
      obtain ⟨item, hitem, rfl⟩ := List.mem_map.1 ht
      exact ⟨item, hitem, (isUnclosed_eq item).trans hopen⟩
  rw [Absorbs, hleft]
  simp only [nodes, List.forall_mem_map, isHeader_eq]

theorem leftOpen_of_settled {tree : Tree} (h : tree.Settled) : leftOpen tree = false := by
  rcases h with ⟨g, _, rfl⟩ | ⟨k, seg, hk, rfl, hseg⟩
  · rfl
  · rw [headerTree]
    split
    · rfl
    · rename_i himport
      obtain ⟨body, semi, rfl, hsemi⟩ := hseg.resolve_left himport
      rw [leftOpen, Tree.tokensAll_leaves, ← List.cons_append, List.getLast?_concat]
      simp [hsemi]

section Twice

variable {text uri : String} {head rest : List Token} {trees : List Tree} {n : Nat}

theorem not_leftOpen_of_mem_filter (hsettled : ∀ tree ∈ trees, tree.Settled) {t : Tree}
    (h : t ∈ trees.filter Tree.isNode) : ¬leftOpen t := by
  rw [leftOpen_of_settled (hsettled t (List.mem_filter.1 h).1)]
  exact Bool.false_ne_true

theorem not_absorbs_trivia (hsplit : HeadSplit (Token.scan text) head trees n rest)
    (hrest : ∀ g ∈ rest, g.isTrivia) {gap : List Token} (hgap : ∀ g ∈ gap, g.isTrivia)
    (hended : Token.scan (text ++ lineEnd text) = head ++ gap) : ¬Absorbs text := by
  have hnext : nextKind? rest ≠ some .importKw := by
    rw [nextKind?_trivia hrest]
    exact (Option.some_ne_none _).symm
  have hnodes : nodes (parse text) = trees.filter Tree.isNode := by
    rw [nodes_eq, items_trivia hsplit hrest, List.filter_append, filter_leaves, List.append_nil]
  rw [absorbs_iff, hnodes, hended]
  rintro ⟨_, ⟨t, ht, hopen⟩ | hlast⟩
  · exact not_leftOpen_of_mem_filter hsplit.settled ht hopen
  · rw [List.getLast?_append] at hlast
    cases hg : gap.getLast? with
    | some g =>
      have htriv := hgap g (List.mem_of_getLast? hg)
      simp only [hg, Option.some_or, Option.any_some, beq_iff_eq] at hlast
      simp [Token.isTrivia, hlast, TokenKind.isTrivia] at htriv
    | none =>
      rw [hg, Option.none_or] at hlast
      rcases hsplit.ends hnext with rfl | ⟨init, semi, rfl, hsemi⟩
      · simp at hlast
      · simp [hsemi] at hlast

theorem not_absorbs_body {gap : List Token} {t : Token}
    (hsplit : HeadSplit (Token.scan text) head trees n (gap ++ t :: rest))
    (hgap : ∀ g ∈ gap, g.isTrivia) (hsig : t.isTrivia = false)
    (ht : t.kind.opensHeader = false) : ¬Absorbs text := by
  obtain ⟨tree, more, _, hitems, hnode, hclosed⟩ := items_body hsplit hgap hsig ht
  rw [absorbs_iff]
  rintro ⟨hall, _⟩
  have hopens := hall tree (by rw [nodes_eq, hitems]; simp [hnode])
  rw [hclosed] at hopens
  cases hopens

section Unclosed

variable {gap seg trail : List Token} {k : Token}

theorem items_unclosed
    (hsplit : HeadSplit (Token.scan text) head trees n (gap ++ k :: (seg ++ trail)))
    (hopen : OpenHeader gap k seg trail) :
    (parse text).items =
      trees ++ (gap.map .leaf ++ headerTree k seg :: trail.map .leaf) := by
  have hseg : HeaderBody k seg trail 1 :=
    .unclosed hopen.free hopen.trimmed (.inl (significant_eq_nil hopen.trail_trivia))
  rw [parse, hsplit.eq, (hsplit.heads _ id).items,
    (Parse.ofTokens_header hopen.opens hopen.gap_trivia hseg).1,
    Parse.ofTokens_trivia hopen.trail_trivia]

theorem nodes_unclosed
    (hsplit : HeadSplit (Token.scan text) head trees n (gap ++ k :: (seg ++ trail)))
    (hopen : OpenHeader gap k seg trail) :
    nodes (parse text) = trees.filter Tree.isNode ++ [headerTree k seg] := by
  rw [nodes_eq, items_unclosed hsplit hopen, List.filter_append, List.filter_append, filter_leaves,
    List.filter_cons_of_pos (isNode_headerTree k seg), filter_leaves]
  rfl

theorem opensHead_unclosed
    (hsplit : HeadSplit (Token.scan text) head trees n (gap ++ k :: (seg ++ trail)))
    (hopen : OpenHeader gap k seg trail) : ∀ t ∈ nodes (parse text), opensHead t := by
  rw [nodes_unclosed hsplit hopen]
  refine List.forall_mem_append.2 ⟨opensHead_of_mem_filter hsplit.settled, ?_⟩
  simpa using opensHead_headerTree hopen.opens seg

theorem leftOpen_headerTree (h : OpenHeader gap k seg trail) :
    leftOpen (headerTree k seg) = true ↔ k.kind ≠ .importKw := by
  rw [headerTree]
  split
  · rename_i himport
    simp [leftOpen, himport]
  · rename_i himport
    have hk : k.kind ≠ .semicolon := by
      intro hk
      have hopens := h.opens
      simp [hk, TokenKind.opensHeader] at hopens
    rw [leftOpen, Tree.tokensAll_leaves, List.getLast?_cons]
    cases hs : seg.getLast? with
    | none => simp [hk, himport]
    | some t =>
      have ht : t.kind ≠ .semicolon := by
        intro ht
        have hfree := h.free t (List.mem_of_getLast? hs)
        rw [ht, semicolon_mem_stops] at hfree
        cases hfree
      simp [ht, himport]

theorem absorbs_unclosed_iff
    (hsplit : HeadSplit (Token.scan text) head trees n (gap ++ k :: (seg ++ trail)))
    (hopen : OpenHeader gap k seg trail) :
    Absorbs text ↔ k.kind ≠ .importKw ∨
      (Token.scan (text ++ lineEnd text)).getLast?.any (·.kind == .errorToken) := by
  have hleft : (∃ t ∈ trees.filter Tree.isNode ++ [headerTree k seg], leftOpen t) ↔
      k.kind ≠ .importKw := by
    rw [← leftOpen_headerTree hopen]
    constructor
    · rintro ⟨t, ht, hleft⟩
      rcases List.mem_append.1 ht with ht | ht
      · exact absurd hleft (not_leftOpen_of_mem_filter hsplit.settled ht)
      · exact List.mem_singleton.1 ht ▸ hleft
    · intro hleft
      exact ⟨_, List.mem_append_right _ List.mem_cons_self, hleft⟩
  rw [absorbs_iff, and_iff_right (opensHead_unclosed hsplit hopen), nodes_unclosed hsplit hopen,
    hleft]

theorem has_of_scan
    (hsplit : HeadSplit (Token.scan text) head trees n (gap ++ k :: rest))
    (hgap : ∀ g ∈ gap, g.isTrivia) (hk : k.kind.opensHeader) {text' : String} {us : List Token}
    (hscan : Token.scan text' = head ++ (gap ++ k :: us)) :
    has (parse text').root uri = (trees.any (imports uri) ||
      (Parse.ofTokens (gap ++ k :: us)).items.any (imports uri)) := by
  have hsig := isTrivia_of_opensHeader hk
  have hheads := hsplit.heads (gap ++ k :: us) fun hnext => by
    rwa [nextKind?_gap hgap hsig] at hnext ⊢
  rw [has_eq, parse, hscan, hheads.items, List.any_append]

theorem any_cut (himport : k.kind = .importKw) (hopen : OpenHeader gap k seg trail)
    {gap' : List Token} (hgap' : ∀ g ∈ gap', g.isTrivia) :
    (Parse.ofTokens (gap ++ k :: (seg ++ gap' ++ lineTokens uri))).items.any (imports uri) =
      true := by
  have hseg : HeaderBody k seg (gap' ++ lineTokens uri ++ []) 1 := by
    refine .unclosed hopen.free hopen.trimmed (.inr ⟨himport, ?_⟩)
    rw [List.append_nil]
    exact nextKind?_gap hgap' rfl
  have hitems := (Parse.ofTokens_header hopen.opens hopen.gap_trivia hseg).1
  rw [List.append_nil, ← List.append_assoc] at hitems
  have hline := (ofTokens_line uri hgap' []).1
  rw [List.append_nil] at hline
  rw [hitems, hline]
  simp [imports_lineTree]

theorem any_swallowed (himport : k.kind ≠ .importKw) (hopen : OpenHeader gap k seg trail)
    {gap' : List Token} (hgap' : ∀ g ∈ gap', g.isTrivia) :
    (Parse.ofTokens (gap ++ k :: (seg ++ gap' ++ lineTokens uri))).items.any (imports uri) =
      false := by
  have hstops : stops k = [.semicolon] := if_neg himport
  have hbody : ∀ t ∈ seg ++ gap' ++ [keyword, space, literal uri],
      (stops k).contains t.kind = false := by
    refine List.forall_mem_append.2 ⟨List.forall_mem_append.2 ⟨hopen.free, ?_⟩, ?_⟩
    · exact fun t ht => not_stop_of_trivia (hgap' t ht)
    · simp [hstops, keyword, space, literal]
  have hseg :
      HeaderBody k (seg ++ gap' ++ [keyword, space, literal uri] ++ [semicolon]) [newline] 0 :=
    .closed _ semicolon hbody rfl
  have hitems := (Parse.ofTokens_header hopen.opens hopen.gap_trivia hseg).1
  have htokens : seg ++ gap' ++ lineTokens uri =
      seg ++ gap' ++ [keyword, space, literal uri] ++ [semicolon] ++ [newline] := by
    simp [lineTokens]
  rw [htokens, hitems, Parse.ofTokens_trivia (by simp [isTrivia_whitespace, newline]),
    List.any_append, List.any_cons, any_leaves, any_leaves, imports_headerTree,
    beq_eq_false_iff_ne.2 himport]
  rfl

theorem has_unclosed (huri : Plain uri) (hhas : has (parse text).root uri = false)
    (hsplit : HeadSplit (Token.scan text) head trees n (gap ++ k :: (seg ++ trail)))
    (hopen : OpenHeader gap k seg trail) :
    ∃ text', extend? text uri = some text' ∧
      (has (parse text').root uri = true ↔ ¬Absorbs text) := by
  have hends : ∀ t ∈ (parse text).items, t.isNode → opensHead t := by
    intro t ht hnode
    refine opensHead_unclosed hsplit hopen t ?_
    rw [nodes_eq]
    exact List.mem_filter.2 ⟨ht, hnode⟩
  have hold : has (parse text).root uri = _ :=
    has_of_scan hsplit hopen.gap_trivia hopen.opens hsplit.eq
  rw [hhas, any_openHeader hopen] at hold
  obtain ⟨htrees, himports⟩ := Bool.or_eq_false_iff.1 hold.symm
  refine ⟨_, extend?_end hhas hends, ?_⟩
  have hne : text ≠ "" := by
    rintro rfl
    have heq := hsplit.eq
    have hempty : Token.scan "" = [] := rfl
    simp [hempty] at heq
  obtain ⟨x, ts, last, hx, hscan, hlines⟩ := exists_lineEnd hne
  have hended : Token.scan (text ++ lineEnd text) = ts ++ [last] := scan_of_scans (hx ▸ hscan)
  rw [hsplit.eq] at hlines
  rw [absorbs_unclosed_iff hsplit hopen, hended, List.getLast?_concat, Option.any_some]
  rcases hscan.last_newline with hlast | ⟨hlast, _⟩
  · obtain ⟨gap', hgap', heq⟩ := exists_trail hopen hlines hlast
    have hnew := scan_append_line huri hx hscan hlast
    rw [heq, List.append_assoc, List.append_assoc, List.cons_append] at hnew
    rw [has_of_scan hsplit hopen.gap_trivia hopen.opens hnew, htrees, Bool.false_or]
    by_cases himport : k.kind = .importKw
    · rw [any_cut himport hopen hgap']
      simp [himport, hlast]
    · rw [any_swallowed himport hopen hgap']
      simp [himport]
  · cases hlines with
    | fresh hspace => simp [hspace] at hlast
    | merged _ _ hspace => simp [hspace] at hlast
    | absorbed heq he hes _ =>
      obtain ⟨pre, rfl, hpre⟩ := exists_before hopen.opens heq he hes
      obtain ⟨e', rest, hnew, he', hnewline, hrest⟩ := scan_absorbed huri hx hscan hlast
      rw [List.append_assoc, List.append_assoc, List.cons_append] at hnew
      rw [has_of_scan hsplit hopen.gap_trivia hopen.opens hnew, htrees,
        any_absorbed huri hopen hpre he he' hnewline hrest, himports]
      simp [hlast]

end Unclosed

theorem has_added {gap : List Token} {more : List Tree} {text' : String}
    (hitems : (parse text').items = trees ++ (gap.map .leaf ++ lineTree uri :: more)) :
    has (parse text').root uri = true := by
  rw [has_eq, hitems]
  simp [imports_lineTree]

theorem extend?_has_iff (huri : Plain uri) (hhas : has (parse text).root uri = false) :
    ∃ text', extend? text uri = some text' ∧
      (has (parse text').root uri = true ↔ ¬Absorbs text) := by
  obtain ⟨head, trees, n, rest, hsplit⟩ := exists_headSplit (Token.scan text)
  cases hsplit.after with
  | trivia hrest =>
    obtain ⟨text', gap, htext', hgap, hended, hitems, _⟩ := extend?_trivia huri hhas hsplit hrest
    have hfree := not_absorbs_trivia hsplit hrest hgap hended
    exact ⟨text', htext', iff_of_true (has_added hitems) hfree⟩
  | body hgap hsig ht =>
    obtain ⟨text', htext', hitems, _⟩ := extend?_before huri hhas hsplit hgap hsig ht
    have hfree := not_absorbs_body hsplit hgap hsig ht
    exact ⟨text', htext', iff_of_true (has_added hitems) hfree⟩
  | unclosed hopen => exact has_unclosed huri hhas hsplit hopen

theorem found_again_iff (huri : Plain uri) :
    (has (parse ((extend? text uri).getD text)).root uri = true ↔
      has (parse text).root uri = true ∨ ¬Absorbs text) ∧
    (extend? ((extend? text uri).getD text) uri = none ↔
      has (parse text).root uri = true ∨ ¬Absorbs text) := by
  have hiff : has (parse ((extend? text uri).getD text)).root uri = true ↔
      has (parse text).root uri = true ∨ ¬Absorbs text := by
    cases hhas : has (parse text).root uri with
    | true =>
      rw [extend?_eq_none_iff.2 hhas, Option.getD_none, hhas]
      simp
    | false =>
      obtain ⟨text', htext', hiff⟩ := extend?_has_iff huri hhas
      rw [htext', Option.getD_some, hiff]
      simp
  exact ⟨hiff, extend?_eq_none_iff.trans hiff⟩

theorem found_again_open_import :
    ¬Absorbs "import 'a.dart'" ∧
    extend? ((extend? "import 'a.dart'" "b.dart").getD "import 'a.dart'") "b.dart" = none := by
  have hfree : ¬Absorbs "import 'a.dart'" := by decide +kernel
  exact ⟨hfree, (found_again_iff (by decide +kernel)).2.2 (.inr hfree)⟩

theorem added_again_open_export :
    Plain "b.dart" ∧
    extend? "export 'a.dart'" "b.dart" = some "export 'a.dart'\nimport 'b.dart';\n" ∧
    has (parse "export 'a.dart'\nimport 'b.dart';\n").root "b.dart" = false ∧
    extend? "export 'a.dart'\nimport 'b.dart';\n" "b.dart" =
      some "export 'a.dart'\nimport 'b.dart';\nimport 'b.dart';\n" := by
  refine ⟨?_, ?_, ?_, ?_⟩
  · decide +kernel
  · decide +kernel
  · decide +kernel
  · decide +kernel

end Twice

end CrossReference.Import
