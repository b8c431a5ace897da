import CrossReference.Proofs.Printing.Forms

namespace CrossReference.Source

open Token (sign space keyword)
open Lookahead Step Grammar

namespace Parse

theorem ofTokens_of_leads {ts us : List Token} {xs ys : List Tree} (hts : significant ts ≠ [])
    (h : Leads body (.call .item) [] ts xs us) (hmoved : us.length ≠ ts.length)
    (hrest : ofTokens us = ⟨ys, []⟩) : ofTokens ts = ⟨xs ++ ys, []⟩ := by
  have hturn : Leads body turn [] ts xs us := h.insist hmoved
  obtain ⟨m, hrun, hm, hquiet⟩ := hturn (.ofTokens ts) ⟨Builder.reads_ofTokens ts, rfl⟩
  obtain ⟨hitems, herrors⟩ := ofTokens_of_turn hts hrun
  rw [hm.reads.left, hrest] at hitems herrors
  rw [hm.trees] at hitems
  have hnone : m.errors = [] := hquiet
  rw [hnone] at herrors
  exact (Parse.mk.injEq ..).mpr ⟨hitems, herrors⟩

end Parse

def nameTree (name : Word) : Tree := .node .name [.leaf name.token]

def declaratorTree (name : Word) (value : Expr) : Tree :=
  .node .declarator
    [nameTree name, .leaf space, .leaf (sign .eq), .leaf space, value.tree]

def declaratorTokens (name : Word) (value : Expr) : List Token :=
  [name.token, space, sign .eq, space] ++ value.tokens

def declarator (d : Word × Expr) : Written :=
  ⟨declaratorTokens d.1 d.2, declaratorTree d.1 d.2⟩

section Variables

variable {xs : List Tree} {rest : List Token}

theorem significant_declarator (name : Word) (value : Expr) (rest : List Token) :
    ∃ us, significant (space :: (declaratorTokens name value ++ rest)) =
      name.token :: sign .eq :: us := ⟨_, rfl⟩

def readDeclarator : Act :=
  .node .declarator (inOrder [Grammar.name, given (startsWith .eq) (inOrder [.take, .call .expr])])

theorem readBy_declarator (d : Word × Expr) : (declarator d).ReadBy readDeclarator := by
  intro gap rest f xs hgap hf
  have hname : Leads body Grammar.name [] (d.1.token :: space :: sign .eq :: space ::
      (d.2.tokens ++ f :: rest)) _ _ := .look (.node rfl (.take rfl))
  have hvalue : Leads body (inOrder [.take, .call .expr]) [nameTree d.1]
      (space :: sign .eq :: space :: (d.2.tokens ++ f :: rest)) _ _ :=
    .andThen (.take_after rfl rfl) (d.2.reads.expr_after rfl hf)
  exact .node_gap hgap rfl (.andThen hname (.look hvalue))

theorem leads_declarators (first : Word × Expr) (more : List (Word × Expr)) :
    Leads body (.call .declarators) xs
      (space :: (Written.separated ((first :: more).map declarator) ++ sign .semicolon :: rest))
      (xs ++ .leaf space :: Written.separatedTrees ((first :: more).map declarator))
      (sign .semicolon :: rest) := by
  have hends : (sign .semicolon).EndsExpr := Token.endsExpr_sign (by decide)
  have hitems : ∀ w ∈ (first :: more).map declarator, w.ReadBy readDeclarator :=
    List.forall_mem_map.2 fun d _ => readBy_declarator d
  have hlist : Leads body (.call .declarators) xs
      ([space] ++ (Written.separated ((first :: more).map declarator) ++ sign .semicolon :: rest))
      _ _ :=
    .call (Written.leads_separated Written.isTrivia_gap hends (by decide) (fun _ _ _ _ _ => rfl)
      hitems)
  simpa using hlist

theorem leads_declarator (name : Word) (value : Expr) :
    Leads body (.call .declarators) xs
      (space :: (declaratorTokens name value ++ sign .semicolon :: rest))
      (xs ++ [.leaf space, declaratorTree name value]) (sign .semicolon :: rest) :=
  leads_declarators (name, value) []

def finalTokens (name : Word) (value : Expr) : List Token :=
  keyword .finalKw :: space :: (declaratorTokens name value ++ [sign .semicolon])

def finalTree (name : Word) (value : Expr) : Tree :=
  .node .topLevelVar
    [.leaf (keyword .finalKw), .leaf space, declaratorTree name value, .leaf (sign .semicolon)]

theorem afterQualifiers_of_ne {t : Token} {ts : List Token} (h : t.kind ≠ .dot) :
    afterQualifiers (t :: ts) = t :: ts := by
  cases ts with
  | nil => rfl
  | cons u us => simp [afterQualifiers, h]

theorem declarationForm_variable (owner : Option String) (name : Word) (us : List Token) :
    declarationForm owner (name.token :: sign .eq :: us) =
      .wrap (variablesKind owner) (inOrder [.call .declarators, expect .semicolon]) := by
  have hplain : afterQualifiers (sign .eq :: us) = sign .eq :: us :=
    afterQualifiers_of_ne (by decide)
  have htyped : typedName? (name.token :: sign .eq :: us) = none := by
    simp [typedName?, afterType?, hplain, afterFunctionPart?, afterQuestion, startsWithWord, word?]
  simp [declarationForm, atConstructor, word?, htyped, followedBy]

def isModifier (name : Word) : Bool := ["external", "covariant"].contains name.1

theorem atModifier_word {name : Word} (h : isModifier name = false) (us : List Token) :
    atModifier (name.token :: us) = false := by
  simpa [atModifier, startsWithAnyWord, word?, isModifier] using h

theorem leads_final {name : Word} (hname : isModifier name = false) (value : Expr) :
    Leads body (.call .item) xs (finalTokens name value ++ rest) (xs ++ [finalTree name value])
      rest := by
  have hvariable : Leads body (.look (declarationForm none)) [.leaf (keyword .finalKw)]
      (space :: (declaratorTokens name value ++ sign .semicolon :: rest)) [finalTree name value]
      rest := by
    obtain ⟨us, hus⟩ := significant_declarator name value (sign .semicolon :: rest)
    refine .look ?_
    rw [hus, declarationForm_variable]
    exact .wrap (.andThen (leads_declarator name value) (reads_expect rfl rfl))
  have htokens : finalTokens name value ++ rest =
      keyword .finalKw :: space :: (declaratorTokens name value ++ sign .semicolon :: rest) := by
    simp [finalTokens]
  rw [htokens]
  refine .call (.look (.call (.group rfl (.andThen ?_ hvariable))))
  have hstop : atModifier (significant
      (space :: (declaratorTokens name value ++ sign .semicolon :: rest))) = false := by
    obtain ⟨us, hus⟩ := significant_declarator name value (sign .semicolon :: rest)
    rw [hus]
    exact atModifier_word hname _
  exact .repeatTurn rfl (.take rfl) (.repeatStop hstop)

theorem scanned_declarator (d : Word × Expr) : Scanned (declarator d).tokens := by
  refine ⟨d.1.head_nonblank _, fun y hy => ?_⟩
  refine .cons (d.1.stands rfl) (.cons (Token.stands_space rfl) ?_)
  exact .cons (Token.stands_tight (by decide) rfl)
    (.cons (Token.stands_space (d.2.chars_head y)) (d.2.scans hy))

theorem scans_declarator (name : Word) (value : Expr) (y : List Char) :
    Token.Scans (chars (declaratorTokens name value ++ [sign .semicolon]) ++ y)
      (declaratorTokens name value ++ [sign .semicolon]) y :=
  (scanned_declarator (name, value)).closed.scans y

theorem scans_final (name : Word) (value : Expr) (y : List Char) :
    Token.Scans (chars (finalTokens name value) ++ y) (finalTokens name value) y :=
  .cons (Token.stands_keyword (by decide) rfl)
    (.cons (Token.stands_space (name.head_nonblank _ _)) (scans_declarator name value y))

end Variables

theorem scan_eq_of_scans {text : String} {ts : List Token} (htext : text.toList = chars ts)
    (h : Token.Scans (chars ts ++ []) ts []) : Token.scan text = ts := by
  rw [List.append_nil, ← htext] at h
  simpa [Token.scan] using h.scanChars_eq

theorem parse_final (name : Word) (hname : isModifier name = false) (value : Expr) {text : String}
    (htext : text.toList = chars (finalTokens name value)) :
    parse text = ⟨[finalTree name value], []⟩ := by
  have hleads : Leads body (.call .item) [] (finalTokens name value ++ []) _ _ :=
    leads_final hname value
  rw [List.append_nil] at hleads
  have hsome : significant (finalTokens name value) ≠ [] := by
    rw [finalTokens, significant_next rfl]
    exact List.cons_ne_nil _ _
  rw [parse, scan_eq_of_scans htext (scans_final name value [])]
  exact Parse.ofTokens_of_leads hsome hleads (by simp [finalTokens]) rfl

theorem items_final (name : Word) (hname : isModifier name = false) (value : Expr) {text : String}
    (htext : text.toList = chars (finalTokens name value)) :
    (parse text).items = [finalTree name value] := by
  rw [parse_final name hname value htext]

namespace Node

variable {n : Node}

theorem declName?_of_child {label : Node} {name : Word} (hkind : n.kind.isDeclaration = true)
    (hchild : n.child? .name = some label) (hlabel : label.tree = nameTree name) :
    n.declName? = some name.1 := by
  have hword : label.firstWord? = some name.1 := by
    simp [firstWord?, tokens_of_tree hlabel, Tree.token?]
  simp [declName?, hkind, hchild, hword]

theorem exists_value {name : Word} {value : Expr} (h : n.tree = declaratorTree name value) :
    ∃ v ∈ n.children, v.tree = value.tree ∧ n.yielded? = some v ∧ n.declName? = some name.1 := by
  have hkind := kind_of_tree h
  obtain ⟨v, hmem, hfirst, hv⟩ :=
    exists_firstExpr (e := value) h (by simp [nameTree, NodeKind.isExpr])
  have htrees : n.children.map tree = [nameTree name, value.tree] := by
    rw [map_tree_children h]
    simp [nameTree, List.filter_cons]
  obtain ⟨label, _, hchildren, hlabel, -⟩ := exists_pair htrees
  refine ⟨v, hmem, hv, by simp [yielded?, hkind, hfirst], ?_⟩
  refine declName?_of_child (by rw [hkind]; rfl) ?_ hlabel
  simp [child?, hchildren, kind_of_tree hlabel]

theorem exists_final {name : Word} {value : Expr} {root : Node}
    (hroot : root.tree = .node .sourceFile [finalTree name value]) :
    ∃ item d, root.children = [item] ∧ item.kind = .topLevelVar ∧ item.children = [d] ∧
      d.tree = declaratorTree name value := by
  obtain ⟨item, hitems, hitem⟩ := List.map_eq_singleton_iff.1 (map_tree_children hroot)
  obtain ⟨d, hchildren, hd⟩ := List.map_eq_singleton_iff.1 (map_tree_children hitem)
  exact ⟨item, d, hitems, kind_of_tree hitem, hchildren, hd⟩

theorem topLevelDecls_final {name : Word} {value : Expr} {items : List Tree}
    (h : items = [finalTree name value]) :
    ∃ d, (ofRoot .sourceFile items).topLevelDecls = [d] ∧ d.tree = declaratorTree name value := by
  have hroot : (ofRoot .sourceFile items).tree = .node .sourceFile [finalTree name value] := by
    rw [h]
    rfl
  obtain ⟨item, d, hitems, hitem, hchildren, hd⟩ := exists_final hroot
  refine ⟨d, ?_, hd⟩
  simp [topLevelDecls, hitems, hitem, childrenOf, hchildren, kind_of_tree hd]

end Node

def variableWord : Word := ⟨"x", rfl⟩

section Initializer

variable {value : Expr} {print : String} (h : print.toList = chars value.tokens)
include h

theorem parse_initializer :
    parse ("final x = " ++ print ++ ";") = ⟨[finalTree variableWord value], []⟩ := by
  refine parse_final variableWord rfl value ?_
  simp [h, finalTokens, declaratorTokens, variableWord]

theorem exists_initializer :
    ∃ n, (parse ("final x = " ++ print ++ ";")).root.topLevelDecls.head?.bind Node.yielded? =
      some n ∧ n.tree = value.tree := by
  obtain ⟨d, hdecls, hd⟩ :=
    Node.topLevelDecls_final (congrArg Parse.items (parse_initializer h))
  obtain ⟨n, -, hn, hyielded, -⟩ := Node.exists_value hd
  refine ⟨n, ?_, hn⟩
  rw [Parse.root, hdecls]
  exact hyielded

end Initializer

end CrossReference.Source
