import CrossReference.Proofs.Import.Seam

namespace CrossReference.Import

open Source

theorem filter_leaves (ts : List Token) : (ts.map Tree.leaf).filter Tree.isNode = [] := by
  rw [List.filter_eq_nil_iff]
  intro tree ht
  obtain ⟨t, _, rfl⟩ := List.mem_map.1 ht
  exact Bool.false_ne_true

theorem imports_lineTree (uri other : String) : imports other (lineTree uri) = (other == uri) := by
  have hlibrary : libraryOf? (lineTree uri) = some ("'" ++ uri ++ "'") := by
    simp [libraryOf?, lineTree, isLiteral, Tree.text, Tree.tokens, Tree.tokensAll, literal,
      spelling]
  have hdouble : ("'" ++ uri ++ "'" == "\"" ++ other ++ "\"") = false := by
    rw [beq_eq_false_iff_ne]
    intro h
    have hlist := congrArg String.toList h
    simp at hlist
  have hsingle : ("'" ++ uri ++ "'" == "'" ++ other ++ "'") = (other == uri) := by
    rw [Bool.eq_iff_iff, beq_iff_eq, beq_iff_eq]
    constructor
    · intro h
      have hlist := congrArg String.toList h
      simp only [String.toList_append] at hlist
      have hcancel := List.append_cancel_left (List.append_cancel_right hlist)
      exact (String.toList_injective hcancel).symm
    · rintro rfl
      rfl
  simp only [imports, hlibrary, hsingle, hdouble, Bool.or_false]

structure Adds (old new : Parse) (uri : String) : Prop where
  errors : new.errors = []
  headers : (nodes new).takeWhile opensHead = (nodes old).takeWhile opensHead ++ [lineTree uri]
  others : (nodes new).dropWhile opensHead = (nodes old).dropWhile opensHead

namespace Adds

variable {old new : Parse} {uri : String}

theorem of_nodes {head body : List Tree} (hold : nodes old = head ++ body)
    (hnew : nodes new = head ++ lineTree uri :: body) (hhead : ∀ t ∈ head, opensHead t)
    (hbody : ∀ t, body.head? = some t → opensHead t = false) (herrors : new.errors = []) :
    Adds old new uri := by
  have htake : body.takeWhile opensHead = [] := by
    cases body with
    | nil => rfl
    | cons t body => exact List.takeWhile_cons_of_neg (by simp [hbody t rfl])
  have hdrop : body.dropWhile opensHead = body := by
    cases body with
    | nil => rfl
    | cons t body => exact List.dropWhile_cons_of_neg (by simp [hbody t rfl])
  have hline : opensHead (lineTree uri) = true := rfl
  refine ⟨herrors, ?_, ?_⟩
  · rw [hold, hnew, List.takeWhile_append_of_pos hhead, List.takeWhile_append_of_pos hhead,
      List.takeWhile_cons_of_pos hline, htake, List.append_nil]
  · rw [hold, hnew, List.dropWhile_append_of_pos hhead, List.dropWhile_append_of_pos hhead,
      List.dropWhile_cons_of_pos hline]

theorem has_iff (h : Adds old new uri) (other : String) :
    has new.root other = (has old.root other || other == uri) := by
  have hnew := List.takeWhile_append_dropWhile (p := opensHead) (l := nodes new)
  have hold := List.takeWhile_append_dropWhile (p := opensHead) (l := nodes old)
  rw [has_eq_nodes, has_eq_nodes, ← hnew, ← hold, h.headers, h.others]
  simp only [List.any_append, List.any_cons, List.any_nil, Bool.or_false, imports_lineTree]
  cases List.any _ _ <;> cases List.any _ _ <;> cases other == uri <;> rfl

end Adds

section Step

variable {text uri : String} {head rest : List Token} {trees : List Tree} {n : Nat}

theorem opensHead_of_mem_filter (hsettled : ∀ tree ∈ trees, tree.Settled) (tree : Tree)
    (h : tree ∈ trees.filter Tree.isNode) : opensHead tree := by
  obtain ⟨hmem, hnode⟩ := List.mem_filter.1 h
  exact opensHead_of_settled (hsettled tree hmem) hnode

theorem opensHead_of_mem_leaves (hsettled : ∀ tree ∈ trees, tree.Settled) (gap : List Token) :
    ∀ t ∈ trees ++ gap.map .leaf, t.isNode → opensHead t := by
  intro t ht hnode
  rcases List.mem_append.1 ht with ht | ht
  · exact opensHead_of_settled (hsettled t ht) hnode
  · obtain ⟨g, _, rfl⟩ := List.mem_map.1 ht
    cases hnode

theorem items_trivia (hsplit : HeadSplit (Token.scan text) head trees n rest)
    (hrest : ∀ g ∈ rest, g.isTrivia) : (parse text).items = trees ++ rest.map .leaf := by
  rw [parse, hsplit.eq, (hsplit.heads rest id).items, Parse.ofTokens_trivia hrest]

theorem extend?_trivia (huri : Plain uri) (hhas : has (parse text).root uri = false)
    (hsplit : HeadSplit (Token.scan text) head trees n rest) (hrest : ∀ g ∈ rest, g.isTrivia) :
    ∃ text' gap, extend? text uri = some text' ∧ (∀ g ∈ gap, g.isTrivia) ∧
      Token.scan (text ++ lineEnd text) = head ++ gap ∧
      (parse text').items = trees ++ (gap.map .leaf ++ [lineTree uri, .leaf newline]) ∧
      (parse text').errors.length = n := by
  have hnext : nextKind? rest ≠ some .importKw := by
    rw [nextKind?_trivia hrest]
    exact (Option.some_ne_none _).symm
  have hends : ∀ t ∈ (parse text).items, t.isNode → opensHead t := by
    rw [items_trivia hsplit hrest]
    exact opensHead_of_mem_leaves hsplit.settled rest
  obtain ⟨gap, hgap, hended, hscan⟩ := scan_closed huri hsplit.eq (hsplit.ends hnext) hrest
  obtain ⟨hitems, herrors⟩ := ofTokens_line uri hgap []
  have hnewline : Parse.ofTokens [newline] = ⟨[.leaf newline], []⟩ :=
    Parse.ofTokens_trivia (by simp [isTrivia_whitespace, newline])
  rw [hnewline, List.append_nil] at hitems herrors
  have hheads := hsplit.heads (gap ++ lineTokens uri) (absurd · hnext)
  refine ⟨_, gap, extend?_end hhas hends, hgap, hended, ?_, ?_⟩
  · rw [parse, hscan, List.append_assoc, hheads.items, hitems]
  · rw [parse, hscan, List.append_assoc, hheads.errors, herrors]
    rfl

section Before

variable {gap : List Token} {t : Token}

theorem items_body (hsplit : HeadSplit (Token.scan text) head trees n (gap ++ t :: rest))
    (hgap : ∀ g ∈ gap, g.isTrivia) (hsig : t.isTrivia = false)
    (ht : t.kind.opensHeader = false) :
    ∃ tree more, (Parse.ofTokens (gap ++ t :: rest)).items = gap.map .leaf ++ tree :: more ∧
      (parse text).items = trees ++ gap.map .leaf ++ tree :: more ∧ tree.isNode ∧
      opensHead tree = false := by
  obtain ⟨tree, more, hfirst, hstart⟩ := Parse.ofTokens_body hgap hsig ht
  obtain ⟨hnode, hclosed⟩ := not_opensHead hstart
  refine ⟨tree, more, hfirst, ?_, hnode, hclosed⟩
  rw [parse, hsplit.eq, (hsplit.heads _ id).items, hfirst, List.append_assoc]

theorem extend?_before (huri : Plain uri) (hhas : has (parse text).root uri = false)
    (hsplit : HeadSplit (Token.scan text) head trees n (gap ++ t :: rest))
    (hgap : ∀ g ∈ gap, g.isTrivia) (hsig : t.isTrivia = false)
    (ht : t.kind.opensHeader = false) :
    ∃ text', extend? text uri = some text' ∧
      (parse text').items = trees ++ (gap.map .leaf ++
        lineTree uri :: (Parse.ofTokens (newline :: t :: rest)).items) ∧
      (parse text').errors.length = n + (Parse.ofTokens (newline :: t :: rest)).errors.length := by
  have hnext : nextKind? (gap ++ t :: rest) ≠ some .importKw := by
    rw [nextKind?_gap hgap hsig, Ne, Option.some.injEq]
    intro hk
    simp [hk, TokenKind.opensHeader] at ht
  obtain ⟨tree, more, _, hitems, hnode, hclosed⟩ := items_body hsplit hgap hsig ht
  have htokens : Tree.tokensAll (trees ++ gap.map .leaf) = head ++ gap := by
    rw [Tree.tokensAll_append, (hsplit.heads _ id).tokens, Tree.tokensAll_leaves]
  have hscan : Token.scan text = head ++ gap ++ t :: rest := by
    rw [hsplit.eq, List.append_assoc]
  obtain ⟨hline, herrors⟩ := ofTokens_line uri hgap (t :: rest)
  have hheads := hsplit.heads (gap ++ lineTokens uri ++ t :: rest) (absurd · hnext)
  have hparse : parse (spelling (head ++ gap) ++ (line uri ++ "\n") ++ spelling (t :: rest)) =
      Parse.ofTokens (head ++ (gap ++ lineTokens uri ++ t :: rest)) := by
    rw [parse, scan_insert huri hscan (hsplit.ends hnext) hgap hsig]
    simp
  refine ⟨_, extend?_body hhas hscan (by simp) hitems htokens
    (opensHead_of_mem_leaves hsplit.settled gap) hnode hclosed, ?_, ?_⟩
  · rw [hparse, hheads.items, hline]
  · rw [hparse, hheads.errors, herrors]

theorem adds_before (huri : Plain uri) (herr : (parse text).errors = [])
    (hhas : has (parse text).root uri = false)
    (hsplit : HeadSplit (Token.scan text) head trees n (gap ++ t :: rest))
    (hgap : ∀ g ∈ gap, g.isTrivia) (hsig : t.isTrivia = false)
    (ht : t.kind.opensHeader = false) :
    ∃ text', extend? text uri = some text' ∧ Adds (parse text) (parse text') uri := by
  have hcount : n + (Parse.ofTokens (gap ++ t :: rest)).errors.length = 0 := by
    rw [← (hsplit.heads _ id).errors, ← hsplit.eq]
    exact List.length_eq_zero_iff.2 herr
  have hrest : (Parse.ofTokens (gap ++ t :: rest)).errors = [] :=
    List.length_eq_zero_iff.1 (Nat.eq_zero_of_add_eq_zero_left hcount)
  obtain ⟨tree, more, hfirst, hold, hnode, hclosed⟩ := items_body hsplit hgap hsig ht
  have hnewline : ∀ g ∈ [newline], g.isTrivia := by simp [isTrivia_whitespace, newline]
  obtain ⟨body, hbody, hagain, herrors⟩ := Parse.ofTokens_regap hgap hnewline (by simp) hsig hrest
  obtain rfl : body = tree :: more := List.append_cancel_left (hbody.symm.trans hfirst)
  rw [List.singleton_append] at hagain herrors
  obtain ⟨text', htext', hitems, hcount'⟩ := extend?_before huri hhas hsplit hgap hsig ht
  have hnodes : nodes (parse text) =
      trees.filter Tree.isNode ++ (tree :: more).filter Tree.isNode := by
    rw [nodes_eq, hold, List.filter_append, List.filter_append, filter_leaves, List.append_nil]
  refine ⟨text', htext', .of_nodes hnodes ?_ (opensHead_of_mem_filter hsplit.settled) ?_ ?_⟩
  · rw [nodes_eq, hitems, hagain, List.filter_append, List.filter_append, filter_leaves]
    rfl
  · intro first hfirst
    rw [List.filter_cons_of_pos hnode] at hfirst
    obtain rfl : tree = first := by simpa using hfirst
    exact hclosed
  · rw [← List.length_eq_zero_iff, hcount', herrors]
    exact Nat.eq_zero_of_add_eq_zero_right hcount

end Before

theorem adds_trivia (huri : Plain uri) (hhas : has (parse text).root uri = false)
    (hsplit : HeadSplit (Token.scan text) head trees 0 rest) (hrest : ∀ g ∈ rest, g.isTrivia) :
    ∃ text', extend? text uri = some text' ∧ Adds (parse text) (parse text') uri := by
  obtain ⟨text', gap, htext', _, _, hitems, herrors⟩ := extend?_trivia huri hhas hsplit hrest
  have hnodes : nodes (parse text) = trees.filter Tree.isNode ++ [] := by
    rw [nodes_eq, items_trivia hsplit hrest, List.filter_append, filter_leaves]
  refine ⟨text', htext', .of_nodes hnodes ?_ (opensHead_of_mem_filter hsplit.settled) (by simp)
    (List.length_eq_zero_iff.1 herrors)⟩
  rw [nodes_eq, hitems, List.filter_append, List.filter_append, filter_leaves]
  rfl

theorem extend?_adds (huri : Plain uri) (herr : (parse text).errors = [])
    (hhas : has (parse text).root uri = false) :
    ∃ text', extend? text uri = some text' ∧ Adds (parse text) (parse text') uri := by
  obtain ⟨head, trees, n, rest, hsplit⟩ := exists_headSplit (Token.scan text)
  have hcount : n + (Parse.ofTokens rest).errors.length = 0 := by
    rw [← (hsplit.heads rest id).errors, ← hsplit.eq]
    exact List.length_eq_zero_iff.2 herr
  obtain rfl : n = 0 := Nat.eq_zero_of_add_eq_zero_right hcount
  cases hsplit.after with
  | trivia hrest => exact adds_trivia huri hhas hsplit hrest
  | body hgap hsig ht => exact adds_before huri herr hhas hsplit hgap hsig ht
  | @unclosed gap seg trail k h =>
    have hsegment : HeaderBody k seg trail 1 :=
      .unclosed h.free h.trimmed (.inl (significant_eq_nil h.trail_trivia))
    have herrors := (Parse.ofTokens_header h.opens h.gap_trivia hsegment).2
    omega

end Step

/-- The text after adding imports one after the other, and the libraries that were not there yet. -/
def addAll (text : String) : List String → String × List String
  | [] => (text, [])
  | uri :: uris =>
    match extend? text uri with
    | none => addAll text uris
    | some text' => ((addAll text' uris).1, uri :: (addAll text' uris).2)

section Run

variable {text text' uri : String}

theorem addAll_none (h : extend? text uri = none) (uris : List String) :
    addAll text (uri :: uris) = addAll text uris := by
  rw [addAll, h]

theorem addAll_some (h : extend? text uri = some text') (uris : List String) :
    addAll text (uri :: uris) = ((addAll text' uris).1, uri :: (addAll text' uris).2) := by
  rw [addAll, h]

theorem addAll_snoc (uris : List String) :
    (addAll text (uris ++ [uri])).1 =
      (extend? (addAll text uris).1 uri).getD (addAll text uris).1 := by
  induction uris generalizing text with
  | nil =>
    cases h : extend? text uri with
    | none => rw [List.nil_append, addAll_none h, addAll, h, Option.getD_none]
    | some text' => rw [List.nil_append, addAll_some h, addAll, addAll, h, Option.getD_some]
  | cons first uris ih =>
    cases h : extend? text first with
    | none => rw [List.cons_append, addAll_none h, addAll_none h, ih]
    | some text' => rw [List.cons_append, addAll_some h, addAll_some h, ih]

theorem extend?_isSome_iff :
    (extend? text uri).isSome ↔
      ¬∃ item ∈ (parse text).root.children, item.kind = .importDirective ∧
        ∃ library, item.child? .stringLiteral = some library ∧
          (library.text = "'" ++ uri ++ "'" ∨ library.text = "\"" ++ uri ++ "\"") := by
  have hhas : has (parse text).root uri = true ↔
      ∃ item ∈ (parse text).root.children, item.kind = .importDirective ∧
        ∃ library, item.child? .stringLiteral = some library ∧
          (library.text = "'" ++ uri ++ "'" ∨ library.text = "\"" ++ uri ++ "\"") := by
    rw [has, List.any_eq_true]
    refine exists_congr fun item => and_congr_right fun _ => ?_
    by_cases hk : item.kind = .importDirective
    · cases hl : item.child? .stringLiteral <;> simp [library?, hk, hl]
    · simp [library?, hk]
  rw [← hhas]
  by_cases h : has (parse text).root uri = true <;> simp [extend?, h]

theorem extend?_eq_none_iff : extend? text uri = none ↔ has (parse text).root uri = true := by
  by_cases h : has (parse text).root uri = true <;> simp [extend?, h]

theorem addAll_spec {uris : List String} (herr : (parse text).errors = [])
    (huris : ∀ uri ∈ uris, Plain uri) :
    (addAll text uris).2 = (uris.filter (!has (parse text).root ·)).eraseDups ∧
    (parse (addAll text uris).1).errors = [] ∧
    nodes (parse (addAll text uris).1) = (nodes (parse text)).takeWhile opensHead ++
      ((addAll text uris).2.map lineTree ++ (nodes (parse text)).dropWhile opensHead) := by
  induction uris generalizing text with
  | nil =>
    simp only [addAll, List.filter_nil, List.eraseDups_nil, List.map_nil, List.nil_append,
      List.takeWhile_append_dropWhile, and_true, true_and]
    exact herr
  | cons uri uris ih =>
    obtain ⟨huri, huris⟩ := List.forall_mem_cons.1 huris
    cases hhas : has (parse text).root uri with
    | true =>
      obtain ⟨hadded, herrors, hnodes⟩ := ih herr huris
      rw [addAll_none (extend?_eq_none_iff.2 hhas)]
      exact ⟨by rw [hadded, List.filter_cons_of_neg (by simp [hhas])], herrors, hnodes⟩
    | false =>
      obtain ⟨text', htext', hadds⟩ := extend?_adds huri herr hhas
      obtain ⟨hadded, herrors, hnodes⟩ := ih hadds.errors huris
      rw [addAll_some htext']
      refine ⟨?_, herrors, ?_⟩
      · have hfresh : (fun other => !has (parse text').root other) =
            fun other => !other == uri && !has (parse text).root other := by
          funext other
          rw [hadds.has_iff, Bool.not_or, Bool.and_comm]
        rw [List.filter_cons_of_pos (by simp [hhas]), List.eraseDups_cons, List.filter_filter,
          hadded, hfresh]
      · rw [hnodes, hadds.headers, hadds.others]
        simp

theorem takeWhile_isHeader (p : Parse) :
    (p.root.children.takeWhile isHeader).map Node.tree = (nodes p).takeWhile opensHead := by
  rw [nodes, List.takeWhile_map]
  simp only [Function.comp_def, ← isHeader_eq]

theorem dropWhile_isHeader (p : Parse) :
    (p.root.children.dropWhile isHeader).map Node.tree = (nodes p).dropWhile opensHead := by
  rw [nodes, List.dropWhile_map]
  simp only [Function.comp_def, ← isHeader_eq]

/-- Imports added one after the other to a file without errors. Each is added exactly when the text
at that point has no import of its library, and else the text stays. In the end, the file has no
errors, and the new imports, each library once and in the order of their first use, stand between
the headers and the other items, which are the same trees as before. -/
theorem addAll_between_items {uris : List String} (herr : (parse text).errors = [])
    (huris : ∀ uri ∈ uris, Plain uri) :
    (∀ pre uri post, uris = pre ++ uri :: post →
      ((extend? (addAll text pre).1 uri).isSome ↔
        ¬∃ item ∈ (parse (addAll text pre).1).root.children, item.kind = .importDirective ∧
          ∃ library, item.child? .stringLiteral = some library ∧
            (library.text = "'" ++ uri ++ "'" ∨ library.text = "\"" ++ uri ++ "\"")) ∧
      (addAll text (pre ++ [uri])).1 =
        (extend? (addAll text pre).1 uri).getD (addAll text pre).1) ∧
    (addAll text uris).2 = (uris.filter (!has (parse text).root ·)).eraseDups ∧
    (parse (addAll text uris).1).errors = [] ∧
    (parse (addAll text uris).1).root.children.map Node.tree =
      ((parse text).root.children.takeWhile isHeader).map Node.tree ++
        ((addAll text uris).2.map lineTree ++
          ((parse text).root.children.dropWhile isHeader).map Node.tree) := by
  obtain ⟨hadded, herrors, hnodes⟩ := addAll_spec herr huris
  refine ⟨?_, hadded, herrors, ?_⟩
  · intro pre uri post _
    exact ⟨extend?_isSome_iff, addAll_snoc pre⟩
  · rw [takeWhile_isHeader, dropWhile_isHeader]
    exact hnodes

theorem addAll_between_items_of_library :
    (parse "library a;\nimport \"x.dart\"; // x\n\nclass A {}").errors = [] ∧
    (addAll "library a;\nimport \"x.dart\"; // x\n\nclass A {}"
      ["b.dart", "x.dart", "b.dart", "c.dart"]).2 = ["b.dart", "c.dart"] := by
  have herr : (parse "library a;\nimport \"x.dart\"; // x\n\nclass A {}").errors = [] := by
    decide +kernel
  refine ⟨herr, (addAll_between_items herr (by decide +kernel)).2.1.trans ?_⟩
  decide +kernel

end Run

end CrossReference.Import
