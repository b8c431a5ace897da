import CrossReference.Proofs.Printing.Declaration

namespace CrossReference.Source

open Token (Scans sign space keyword)
open Lookahead Step Grammar

def listWord : Word := ⟨"List", rfl⟩

def voidWord : Word := ⟨"void", rfl⟩

def getWord : Word := ⟨"get", rfl⟩

def typeTree (type : Word) : Tree := .node .typeRef [.leaf type.token]

def listTypeTree (element : Word) : Tree :=
  .node .typeRef
    [.leaf listWord.token,
     .node .typeArgs [.leaf (sign .lAngle), typeTree element, .leaf (sign .rAngle)]]

section Types

variable {xs : List Tree} {us rest : List Token}

def endsType (us : List Token) : Bool :=
  startsWithAny [.rAngle, .ident] us &&
    !(startsWithWord "Function" us && kindAt? 1 us == some .lParen)

@[simp] theorem endsType_word (name : Word) :
    endsType (name.token :: us) = !(name.1 == "Function" && kind? us == some .lParen) := by
  simp [endsType, startsWithWord, word?]

def typeEnd (ts : List Token) : Act := inOrder
  [.look fun us =>
    if startsWithWord "Function" us && kindAt? 1 us == some .lParen then
      inOrder [.take, takeGroup]
    else if startsWithWord "Function" ts && startsWith .lParen us then takeGroup
    else .done,
   eat .question]

theorem exists_of_endsType (h : endsType us = true) :
    ∃ t ts, us = t :: ts ∧ (t.kind = .rAngle ∨ t.kind = .ident) ∧
      (startsWithWord "Function" us && kindAt? 1 us == some .lParen) = false := by
  obtain ⟨hkind, hfunction⟩ := Bool.and_eq_true_iff.1 h
  cases us with
  | nil => cases hkind
  | cons t ts => exact ⟨t, ts, rfl, by simpa using hkind, Bool.not_eq_eq_eq_not.1 hfunction⟩

theorem leads_typeEnd (ts : List Token) (h : endsType (significant us) = true) :
    Leads body (typeEnd ts) xs us xs us := by
  obtain ⟨t, vs, hus, hkind, hfunction⟩ := exists_of_endsType h
  have hother : startsWith .lParen (significant us) = false ∧
      startsWith .question (significant us) = false := by
    rw [hus]
    rcases hkind with hkind | hkind <;> simp [hkind]
  exact .andThen (.pass (by simp only [hfunction, hother.1, Bool.and_false, Bool.false_eq_true,
    if_false])) (.skip hother.2)

theorem leads_plainType (type : Word) (h : endsType (significant us) = true) {gap : List Token}
    (hgap : ∀ g ∈ gap, g.isTrivia) :
    Leads body (.call .typeRef) xs (gap ++ type.token :: us)
      (xs ++ gap.map .leaf ++ [typeTree type]) us := by
  obtain ⟨t, vs, hus, hkind, -⟩ := exists_of_endsType h
  have hdot : followedBy .dot .ident (significant us) = false := by
    rw [hus]
    rcases hkind with hkind | hkind <;> simp [followedBy, hkind]
  have hangle : startsWith .lAngle (significant us) = false := by
    rw [hus]
    rcases hkind with hkind | hkind <;> simp [hkind]
  refine .call (.node_gap hgap rfl (.look (.andThen (.take rfl) (.andThen (.repeatStop hdot) ?_))))
  exact .andThen (.skip hangle) (leads_typeEnd _ h)

theorem leads_nextType (type : Word) (h : endsType (significant us) = true) :
    Leads body (.call .typeRef) xs (type.token :: us) (xs ++ [typeTree type]) us := by
  have h : Leads body (.call .typeRef) xs ([] ++ type.token :: us) _ us :=
    leads_plainType type h (by simp)
  simpa using h

theorem leads_listType (element : Word) (h : endsType (significant us) = true) :
    Leads body (.call .typeRef) xs
      (space :: listWord.token :: sign .lAngle :: element.token :: sign .rAngle :: us)
      (xs ++ [.leaf space, listTypeTree element]) us := by
  have hargs {xs : List Tree} : Leads body (.call .typeArgs) xs
      (sign .lAngle :: element.token :: sign .rAngle :: us) _ us :=
    .call (.node rfl (.andThen (.take rfl)
      (.andThen (.commaLast rfl (leads_nextType element rfl) rfl) (reads_expect rfl rfl))))
  refine .call (.node_after rfl rfl (.look (.andThen (.take rfl) (.andThen (.repeatStop rfl) ?_))))
  exact .andThen (.look hargs) (leads_typeEnd _ h)

theorem typedName?_word (type : Word) {name : Word} (h : endsType (name.token :: us) = true) :
    typedName? (type.token :: name.token :: us) = some (name.token :: us) := by
  have hplain : afterQualifiers (name.token :: us) = name.token :: us :=
    afterQualifiers_of_ne (by simp)
  have hname : ¬ (name.1 = "Function" ∧ kind? us = some .lParen) := by
    rw [endsType_word] at h
    grind
  simp [typedName?, afterType?, hplain, afterFunctionPart?, afterQuestion, startsWithWord, word?,
    hname]

end Types

section Choice

variable {owner : String} {name type : Word} {us : List Token}

def opensTyped (type : Word) : Bool :=
  !List.contains ["get", "set", "external", "covariant"] type.1

theorem isModifier_of_opensTyped (h : opensTyped type = true) : isModifier type = false := by
  simp only [opensTyped, isModifier] at h ⊢
  grind

theorem declarationForm_typed (htype : opensTyped type = true)
    (h : endsType (name.token :: us) = true) :
    declarationForm (some owner) (type.token :: name.token :: us) =
      typedDeclaration (some owner) (name.token :: us) := by
  have hother : type.1 ≠ "get" ∧ type.1 ≠ "set" := by
    simp only [opensTyped] at htype
    grind
  simp [declarationForm, atConstructor, word?, typedName?_word type h, startsWithWord, hother]

theorem typedDeclaration_field (hname : name.1 ≠ "operator") :
    typedDeclaration (some owner) (name.token :: sign .eq :: us) =
      .wrap .fieldDecl (inOrder [.call .typeRef, .call .declarators, expect .semicolon]) := by
  simp [typedDeclaration, startsWithWord, word?, hname, variablesKind]

theorem typedDeclaration_getter :
    typedDeclaration (some owner) (getWord.token :: name.token :: us) =
      .wrap .getterDecl (inOrder
        [.call .typeRef, .take, Grammar.name, .call (.functionBody false)]) := by
  simp [typedDeclaration, startsWithWord, word?, getWord]

theorem typedDeclaration_method (hname : name.1 ≠ "operator") :
    typedDeclaration (some owner) (name.token :: sign .lParen :: us) =
      .wrap .methodDecl (inOrder [.call .typeRef, .call .functionRest]) := by
  simp [typedDeclaration, startsWithWord, word?, hname, functionKind]

theorem declarationForm_constructor :
    declarationForm (some name.1) (name.token :: sign .lParen :: us) =
      .wrap .constructorDecl (.call .constructorRest) := by
  simp [declarationForm, atConstructor, word?]

def modifiersThenForm (owner : String) : Act :=
  inOrder [.repeatWhile atModifier .take, .look (declarationForm (some owner))]

theorem readAs_member {w : Written} {t : Token} {ts : List Token} (htokens : w.tokens = t :: ts)
    (ht : t.isTrivia = false) (hkind : t.kind ∉ [.rBrace, .atSign, .semicolon])
    (h : ∀ rest, Leads body (modifiersThenForm owner) [] (w.tokens ++ rest) [w.tree] rest) :
    w.ReadAs (.member (some owner)) := by
  have hother : t.kind ≠ .rBrace ∧ t.kind ≠ .atSign ∧ t.kind ≠ .semicolon := by simpa using hkind
  refine ⟨⟨t, ts, htokens, ht, hother.1⟩, fun gap xs rest hgap => .call (.look ?_)⟩
  have hform := h rest
  rw [htokens, List.cons_append] at hform ⊢
  -- Nothing that is tested before a declaration begins here, so the rule of declarations is called.
  rw [significant_after hgap ht]
  have hcall : Leads body (.call (.declaration (some owner))) xs (gap :: t :: (ts ++ rest))
      _ rest := .call (.group_after ht hgap hform)
  simpa [hother] using hcall

end Choice

def listField (element name : Word) (value : Expr) : Written where
  tokens :=
    [keyword .staticKw, space, listWord.token, sign .lAngle, element.token, sign .rAngle, space] ++
      (declaratorTokens name value ++ [sign .semicolon])
  tree := .node .fieldDecl
    [.leaf (keyword .staticKw), .leaf space, listTypeTree element, .leaf space,
     declaratorTree name value, .leaf (sign .semicolon)]

def constantField (name : Word) (value : Expr) : Written where
  tokens := [keyword .staticKw, space, keyword .constKw, space] ++
    (declaratorTokens name value ++ [sign .semicolon])
  tree := .node .fieldDecl
    [.leaf (keyword .staticKw), .leaf space, .leaf (keyword .constKw), .leaf space,
     declaratorTree name value, .leaf (sign .semicolon)]

def typedField (type : Word) (first : Word × Expr) (more : List (Word × Expr)) : Written where
  tokens := [keyword .finalKw, space, type.token, space] ++
    (Written.separated ((first :: more).map declarator) ++ [sign .semicolon])
  tree := .node .fieldDecl
    ([.leaf (keyword .finalKw), .leaf space, typeTree type, .leaf space] ++
      (Written.separatedTrees ((first :: more).map declarator) ++ [.leaf (sign .semicolon)]))

def arrowTree (value : Expr) : Tree :=
  .node .exprBody
    [.leaf (sign .fatArrow), .leaf space, value.tree, .leaf (sign .semicolon)]

def getter (type name : Word) (value : Expr) : Written where
  tokens := [type.token, space, getWord.token, space, name.token, space, sign .fatArrow, space] ++
    (value.tokens ++ [sign .semicolon])
  tree := .node .getterDecl
    [typeTree type, .leaf space, .leaf getWord.token, .leaf space, nameTree name, .leaf space,
     arrowTree value]

def param (p : Word × Word) : Written where
  tokens := [p.1.token, space, p.2.token]
  tree := .node .param [typeTree p.1, .leaf space, nameTree p.2]

def paramListTree (params : List (Word × Word)) : Tree :=
  .node .paramList
    (.leaf (sign .lParen) ::
      (Written.separatedTrees (params.map param) ++ [.leaf (sign .rParen)]))

def constructor (name : Word) (params : List (Word × Word)) : Written where
  tokens := [name.token, sign .lParen] ++
    (Written.separated (params.map param) ++ [sign .rParen, sign .semicolon])
  tree := .node .constructorDecl
    [nameTree name, paramListTree params, .leaf (sign .semicolon)]

def method (type name : Word) (params : List (Word × Word)) (block : Written) : Written where
  tokens := [type.token, space, name.token, sign .lParen] ++
    (Written.separated (params.map param) ++ ([sign .rParen, space] ++ block.tokens))
  tree := .node .methodDecl
    [typeTree type, .leaf space, nameTree name, paramListTree params, .leaf space, block.tree]

def blockOf (statements : List Written) : Written where
  tokens := sign .lBrace :: (Written.behind space statements ++ [space, sign .rBrace])
  tree := .node .block
    (.leaf (sign .lBrace) ::
      (Written.treesBehind space statements ++ [.leaf space, .leaf (sign .rBrace)]))

def returning (value : Expr) : Written where
  tokens := [keyword .returnKw, space] ++ (value.tokens ++ [sign .semicolon])
  tree := .node .returnStmt
    [.leaf (keyword .returnKw), .leaf space, value.tree, .leaf (sign .semicolon)]

def calling (callee : Word) (args : List Expr) : Written where
  tokens := (Chain.call (.name callee) args).tokens ++ [sign .semicolon]
  tree := .node .exprStmt [(Chain.call (.name callee) args).tree, .leaf (sign .semicolon)]

section Forms

variable {owner : String} {xs : List Tree} {us rest : List Token}

theorem leads_name (name : Word) :
    Leads body Grammar.name xs (space :: name.token :: us) (xs ++ [.leaf space, nameTree name])
      us :=
  .look (.node_after rfl rfl (.take rfl))

theorem readAs_constantField (name : Word) (hname : isModifier name = false) (value : Expr) :
    (constantField name value).ReadAs (.member (some owner)) := by
  refine readAs_member rfl rfl (by simp) fun rest => ?_
  obtain ⟨us, hus⟩ := significant_declarator name value (sign .semicolon :: rest)
  have hform : Leads body (.look (declarationForm (some owner)))
      [.leaf (keyword .staticKw), .leaf space, .leaf (keyword .constKw)]
      (space :: (declaratorTokens name value ++ sign .semicolon :: rest))
      [(constantField name value).tree] rest := by
    refine .look ?_
    rw [hus, declarationForm_variable]
    exact .wrap (.andThen (leads_declarator name value) (reads_expect rfl rfl))
  have hstop : atModifier (significant
      (space :: (declaratorTokens name value ++ sign .semicolon :: rest))) = false := by
    rw [hus]
    exact atModifier_word hname _
  have hleads : Leads body (modifiersThenForm owner) [] (keyword .staticKw :: space ::
      keyword .constKw :: space :: (declaratorTokens name value ++ sign .semicolon :: rest)) _ _ :=
    .andThen (.repeatTurn rfl (.take rfl) (.repeatTurn rfl (.take_after rfl rfl)
      (.repeatStop hstop))) hform
  simpa [constantField] using hleads

theorem declarationForm_listField (owner : Option String) (element name : Word) (us : List Token)
    (hname : name.1 ≠ "operator") :
    declarationForm owner (listWord.token :: sign .lAngle :: element.token :: sign .rAngle ::
        name.token :: sign .eq :: us) =
      .wrap (variablesKind owner) (inOrder
        [.call .typeRef, .call .declarators, expect .semicolon]) := by
  have hform : afterQualifiers (sign .lAngle :: element.token :: sign .rAngle :: name.token ::
      sign .eq :: us) = sign .lAngle :: element.token :: sign .rAngle :: name.token ::
        sign .eq :: us := afterQualifiers_of_ne (by decide)
  have htyped : typedName? (listWord.token :: sign .lAngle :: element.token :: sign .rAngle ::
      name.token :: sign .eq :: us) = some (name.token :: sign .eq :: us) := by
    simp [typedName?, afterType?, hform, afterAngles?, afterFunctionPart?, afterQuestion,
      startsWithWord, word?]
  simp [declarationForm, atConstructor, word?, htyped, typedDeclaration, startsWithWord, hname]

theorem readAs_listField (element : Word) {name : Word} (hname : name.1 ≠ "operator")
    (value : Expr) : (listField element name value).ReadAs (.member (some owner)) := by
  refine readAs_member rfl rfl (by simp) fun rest => ?_
  let declared := declaratorTokens name value ++ sign .semicolon :: rest
  obtain ⟨us, hus⟩ := significant_declarator name value (sign .semicolon :: rest)
  have hends : endsType (significant (space :: declared)) = true := by
    rw [hus]
    simp
  have hahead : significant (space :: listWord.token :: sign .lAngle :: element.token ::
      sign .rAngle :: space :: declared) = listWord.token :: sign .lAngle :: element.token ::
        sign .rAngle :: name.token :: sign .eq :: us := by
    rw [← hus]
    rfl
  have hform : Leads body (.look (declarationForm (some owner))) [.leaf (keyword .staticKw)]
      (space :: listWord.token :: sign .lAngle :: element.token :: sign .rAngle ::
        space :: declared) [(listField element name value).tree] rest := by
    refine .look ?_
    rw [hahead, declarationForm_listField _ _ _ _ hname]
    exact .wrap (.andThen (leads_listType element hends)
      (.andThen (leads_declarator name value) (reads_expect rfl rfl)))
  have hleads : Leads body (modifiersThenForm owner) [] (keyword .staticKw :: space ::
      listWord.token :: sign .lAngle :: element.token :: sign .rAngle :: space :: declared) _ _ :=
    .andThen (.repeatTurn rfl (.take rfl) (.repeatStop rfl)) hform
  simpa [listField, declared] using hleads

theorem significant_declarators (first : Word × Expr) (more : List (Word × Expr))
    (rest : List Token) :
    ∃ us, significant (Written.separated ((first :: more).map declarator) ++ rest) =
      first.1.token :: sign .eq :: us := by
  cases more with
  | nil => exact ⟨_, rfl⟩
  | cons d more => exact ⟨_, rfl⟩

theorem readAs_typedField {type : Word} (htype : opensTyped type = true) {first : Word × Expr}
    (hname : first.1.1 ≠ "operator") (more : List (Word × Expr)) :
    (typedField type first more).ReadAs (.member (some owner)) := by
  refine readAs_member rfl rfl (by simp) fun rest => ?_
  -- The form is chosen by the name and the `=` behind the type, whatever the first value is.
  obtain ⟨us, hus⟩ := significant_declarators first more (sign .semicolon :: rest)
  let declared := Written.separated ((first :: more).map declarator) ++ sign .semicolon :: rest
  have hahead : significant (space :: type.token :: space :: declared) =
      type.token :: first.1.token :: sign .eq :: us := by
    rw [← hus]
    rfl
  have hends : endsType (first.1.token :: sign .eq :: us) = true := by simp
  have hstop : atModifier (significant (space :: type.token :: space :: declared)) = false := by
    rw [hahead]
    exact atModifier_word (isModifier_of_opensTyped htype) _
  have htypeRef : Leads body (.call .typeRef) [.leaf (keyword .finalKw)]
      ([space] ++ type.token :: space :: declared) _ (space :: declared) :=
    leads_plainType type (hus ▸ hends) Written.isTrivia_gap
  have hform : Leads body (declarationForm (some owner) (significant (space :: type.token ::
      space :: declared))) [.leaf (keyword .finalKw)] (space :: type.token :: space :: declared)
      [(typedField type first more).tree] rest := by
    rw [hahead, declarationForm_typed htype hends, typedDeclaration_field hname]
    exact .wrap (.andThen htypeRef (.andThen (leads_declarators first more)
      (reads_expect rfl rfl)))
  have hleads : Leads body (modifiersThenForm owner) []
      (keyword .finalKw :: space :: type.token :: space :: declared) _ _ :=
    .andThen (.repeatTurn rfl (.take rfl) (.repeatStop hstop)) (.look hform)
  simpa [typedField, declared] using hleads

theorem leads_arrow {value : Expr} :
    Leads body (.call (.functionBody false)) xs
      (space :: sign .fatArrow :: space :: (value.tokens ++ sign .semicolon :: rest))
      (xs ++ [.leaf space, arrowTree value]) rest := by
  have hvalue : Leads body (inOrder [.take, .call .expr, expect .semicolon]) []
      (sign .fatArrow :: space :: (value.tokens ++ sign .semicolon :: rest)) _ rest :=
    .andThen (.take rfl) (.andThen (value.reads.expr_after rfl (Token.endsExpr_sign (by decide)))
      (reads_expect rfl rfl))
  exact .call (.andThen (.pass rfl) (.look (.node_after rfl rfl hvalue)))

theorem readAs_typed {w : Written} {type : Word} (htype : opensTyped type = true) (next : Word)
    {ts : List Token} (htokens : w.tokens = type.token :: space :: next.token :: ts)
    (hends : ∀ rest, endsType (next.token :: significant (ts ++ rest)) = true)
    (h : ∀ rest, Leads body (typedDeclaration (some owner) (next.token :: significant (ts ++ rest)))
      [] (type.token :: space :: next.token :: (ts ++ rest)) [w.tree] rest) :
    w.ReadAs (.member (some owner)) := by
  refine readAs_member htokens rfl (by simp) fun rest => ?_
  have hahead : significant (type.token :: space :: next.token :: (ts ++ rest)) =
      type.token :: next.token :: significant (ts ++ rest) := rfl
  rw [htokens]
  refine .andThen (.repeatStop (atModifier_word (isModifier_of_opensTyped htype) _)) (.look ?_)
  rw [List.cons_append, List.cons_append, List.cons_append, hahead,
    declarationForm_typed htype (hends rest)]
  exact h rest

theorem readAs_getter {type : Word} (htype : opensTyped type = true) (name : Word) (value : Expr) :
    (getter type name value).ReadAs (.member (some owner)) := by
  refine readAs_typed htype getWord rfl (fun _ => by simp [getWord]) fun rest => ?_
  have hends (us : List Token) : endsType (getWord.token :: us) = true := by simp [getWord]
  have hform : Leads body (typedDeclaration (some owner) (getWord.token :: significant
      (space :: name.token :: space :: sign .fatArrow :: space ::
        (value.tokens ++ sign .semicolon :: rest))))
      [] (type.token :: space :: getWord.token :: space :: name.token :: space ::
        sign .fatArrow :: space :: (value.tokens ++ sign .semicolon :: rest))
      [(getter type name value).tree] rest := by
    rw [significant_after (t := name.token) rfl rfl, typedDeclaration_getter]
    exact .wrap (.andThen (leads_nextType type (hends _)) (.andThen (.take_after rfl rfl)
      (.andThen (leads_name name) leads_arrow)))
  simpa [getter] using hform

theorem passes_param (p : Word × Word) : (param p).Passes (before [.rParen]) := by
  intro gap us hgap
  have hahead : significant (gap ++ ((param p).tokens ++ us)) =
      p.1.token :: p.2.token :: significant us := significant_gap hgap rfl
  rw [hahead]
  rfl

theorem readBy_param {p : Word × Word} (h : p.1.1 ≠ "covariant") :
    (param p).ReadBy parameterOrMark := by
  intro gap rest f xs hgap hf
  have hnext : significant (space :: p.2.token :: f :: rest) =
      p.2.token :: f :: significant rest := by
    rw [significant_after (t := p.2.token) rfl rfl, significant_next hf.isTrivia]
  -- What follows the name is neither a function type's parameters nor a default value.
  have hclosed : f.kind ≠ .lParen ∧ f.kind ≠ .eq ∧ f.kind ≠ .colon := by
    simp only [Token.EndsExpr, List.mem_cons, List.not_mem_nil, or_false] at hf
    rcases hf with h | h | h | h <;> simp [h]
  have hends : endsType (p.2.token :: f :: significant rest) = true := by simp [hclosed]
  have htyped : (typedName? (significant (p.1.token :: space :: p.2.token :: f :: rest))).isSome =
      true := by
    rw [significant_next (t := p.1.token) rfl, hnext, typedName?_word p.1 hends]
    rfl
  have htype : Leads body (.call .typeRef) [] (p.1.token :: space :: p.2.token :: f :: rest) _ _ :=
    leads_nextType p.1 (hnext ▸ hends)
  have hname : Leads body (inOrder [given (fun us => (typedName? us).isSome) (.call .typeRef),
      Grammar.name]) [] (p.1.token :: space :: p.2.token :: f :: rest) _ _ :=
    .andThen (.enter htyped htype) (leads_name p.2)
  have hstop : (fun ts => startsWithAny [.finalKw, .constKw, .varKw] ts ||
      startsWithWord "covariant" ts) (significant (p.1.token :: space :: p.2.token :: f :: rest)) =
        false := by
    rw [significant_next (t := p.1.token) rfl]
    simp [startsWithWord, word?, h]
  have hparam : Leads body Grammar.param xs (gap ++ p.1.token :: space :: p.2.token :: f :: rest)
      _ _ :=
    .node_gap hgap rfl (.andThen (.repeatStop hstop) (.andThen (.look hname) (.andThen
      (.skip (by simp [significant_next hf.isTrivia, hclosed]))
      (.skip (by simp [significant_next hf.isTrivia, hclosed])))))
  refine .look ?_
  have hahead : significant (gap ++ ((param p).tokens ++ f :: rest)) =
      p.1.token :: significant (space :: p.2.token :: f :: rest) := significant_gap hgap rfl
  rw [hahead]
  exact .call hparam

theorem leads_paramList {params : List (Word × Word)} (h : ∀ p ∈ params, p.1.1 ≠ "covariant") :
    Leads body (.call .paramList) xs
      (sign .lParen :: (Written.separated (params.map param) ++ sign .rParen :: rest))
      (xs ++ [paramListTree params]) rest :=
  Written.leads_paramList (List.forall_mem_map.2 fun p _ => passes_param p)
    (List.forall_mem_map.2 fun _ hp => readBy_param (h _ hp))

theorem readAs_constructor {name : Word} (hname : isModifier name = false)
    {params : List (Word × Word)} (h : ∀ p ∈ params, p.1.1 ≠ "covariant") :
    (constructor name params).ReadAs (.member (some name.1)) := by
  refine readAs_member rfl rfl (by simp) fun rest => ?_
  let listed := Written.separated (params.map param) ++ sign .rParen :: sign .semicolon :: rest
  have hlabel : Leads body (.node .name (inOrder [.take, given (startsWith .dot)
      (inOrder [.take, .take])])) [] (name.token :: sign .lParen :: listed) [nameTree name]
      (sign .lParen :: listed) := .node rfl (.andThen (.take rfl) (.skip rfl))
  have hend : Leads body (.call (.functionBody false)) [nameTree name, paramListTree params]
      (sign .semicolon :: rest) _ rest := .call (.andThen (.pass rfl) (.look (.take rfl)))
  have hrest : Leads body (.call .constructorRest) [] (name.token :: sign .lParen :: listed)
      _ rest :=
    .call (.andThen hlabel (.andThen (leads_paramList h) (.andThen (.skip rfl) hend)))
  have hform : Leads body (declarationForm (some name.1)
      (name.token :: sign .lParen :: significant listed)) [] (name.token :: sign .lParen :: listed)
      [(constructor name params).tree] rest := by
    rw [declarationForm_constructor]
    exact .wrap hrest
  have hleads : Leads body (modifiersThenForm name.1) [] (name.token :: sign .lParen :: listed)
      _ rest := .andThen (.repeatStop (atModifier_word hname _)) (.look hform)
  simpa [constructor, listed] using hleads

theorem readAs_method {type : Word} (htype : opensTyped type = true) {name : Word}
    (hname : name.1 ∉ ["operator", "Function"]) {params : List (Word × Word)}
    (h : ∀ p ∈ params, p.1.1 ≠ "covariant") {block : Written}
    (hblock : ∀ xs rest, Leads body (.call (.functionBody false)) xs
      (space :: (block.tokens ++ rest)) (xs ++ [.leaf space, block.tree]) rest) :
    (method type name params block).ReadAs (.member (some owner)) := by
  have hother : name.1 ≠ "operator" ∧ name.1 ≠ "Function" := by simpa using hname
  refine readAs_typed htype name rfl (fun _ => by simp [hother]) fun rest => ?_
  let listed := Written.separated (params.map param) ++
    sign .rParen :: space :: (block.tokens ++ rest)
  have hends (us : List Token) : endsType (name.token :: us) = true := by simp [hother]
  have hrest : Leads body (.call .functionRest) [typeTree type]
      (space :: name.token :: sign .lParen :: listed) _ rest :=
    .call (.andThen (leads_name name) (.andThen (.skip rfl)
      (.andThen (leads_paramList h) (hblock _ rest))))
  have hform : Leads body (typedDeclaration (some owner)
      (name.token :: significant (sign .lParen :: listed))) []
      (type.token :: space :: name.token :: sign .lParen :: listed)
      [(method type name params block).tree] rest := by
    rw [significant_next (t := sign .lParen) rfl, typedDeclaration_method hother.1]
    exact .wrap (.andThen (leads_nextType type (hends _)) hrest)
  simpa [method, listed] using hform

theorem leads_blockOf {statements : List Written} (h : ∀ s ∈ statements, s.ReadAs .statement) :
    Leads body (.call (.functionBody false)) xs (space :: ((blockOf statements).tokens ++ rest))
      (xs ++ [.leaf space, (blockOf statements).tree]) rest := by
  have hinner : Leads body (inOrder [expect .lBrace,
      Written.readUntilBrace .statement "expected a statement", expect .rBrace]) []
      (sign .lBrace :: (Written.behind space statements ++ space :: sign .rBrace :: rest)) _ rest :=
    .andThen (reads_expect rfl rfl) (.andThen (Written.leads_behind rfl rfl h)
      (reads_expect_after rfl rfl rfl))
  have hblock : Leads body (.call .block) xs (space :: sign .lBrace ::
      (Written.behind space statements ++ space :: sign .rBrace :: rest))
      _ rest := .call (.node_after rfl rfl hinner)
  have hbody : Leads body (.call (.functionBody false)) xs (space :: sign .lBrace ::
      (Written.behind space statements ++ space :: sign .rBrace :: rest)) _ rest :=
    .call (.andThen (.look .done) (.look hblock))
  simpa [blockOf] using hbody

theorem readAs_returning (value : Expr) : (returning value).ReadAs .statement := by
  refine ⟨⟨_, _, rfl, rfl, by simp⟩, fun gap xs rest hgap => ?_⟩
  obtain ⟨t, ts, ht, hahead⟩ :=
    value.significant_tokens Written.isTrivia_gap (sign .semicolon :: rest)
  have hother : t.kind ≠ .semicolon := by
    intro hkind
    have hopens := ht.kind
    simp [hkind] at hopens
  have hvalue {xs : List Tree} : Leads body (.look fun us =>
      if startsWith .semicolon us then .done else .call .expr) xs
      (space :: (value.tokens ++ sign .semicolon :: rest))
      (xs ++ [.leaf space, value.tree]) (sign .semicolon :: rest) := by
    refine .look ?_
    rw [← List.singleton_append, hahead]
    simpa [hother] using value.reads.expr_after rfl (Token.endsExpr_sign (by decide))
  have hstatement : Leads body (.call .statement) xs (gap :: keyword .returnKw :: space ::
      (value.tokens ++ sign .semicolon :: rest)) (xs ++ [.leaf gap, (returning value).tree])
      rest := by
    refine .call (.look ?_)
    rw [significant_after hgap rfl]
    exact .node_after rfl hgap (.andThen (.take rfl) (.andThen hvalue (reads_expect rfl rfl)))
  simpa [returning] using hstatement

theorem wordStatement_call {callee : Word} (hcallee : callee.1 ≠ "Function") (us : List Token) :
    wordStatement (callee.token :: sign .lParen :: us) = .call .exprStmt := by
  have hplain : afterQualifiers (sign .lParen :: us) = sign .lParen :: us :=
    afterQualifiers_of_ne (by decide)
  -- A name and a parenthesis are no type with a name behind it, unless the name is `Function`.
  have htyped : typedName? (callee.token :: sign .lParen :: us) = none := by
    simp [typedName?, afterType?, hplain, afterFunctionPart?, afterQuestion, startsWithWord, word?,
      hcallee]
  simp [wordStatement, htyped]

theorem readAs_calling {callee : Word} (hcallee : callee.1 ≠ "Function") (args : List Expr) :
    (calling callee args).ReadAs .statement := by
  refine ⟨⟨_, _, rfl, rfl, by simp⟩, fun gap xs rest hgap => ?_⟩
  let call := Chain.call (.name callee) args
  let listed := Expr.tokensAll args ++ [sign .rParen] ++ sign .semicolon :: rest
  have hahead : significant (gap :: (call.tokens ++ sign .semicolon :: rest)) =
      callee.token :: sign .lParen :: significant listed :=
    significant_after (t := callee.token) hgap rfl
  have hexpr : Leads body (.call .expr) [] (call.tokens ++ sign .semicolon :: rest) _ _ :=
    (Expr.reads (.chain call)).expr (Token.endsExpr_sign (by decide))
  have hword : Leads body (wordStatement (callee.token :: sign .lParen :: significant listed)) xs
      (gap :: (call.tokens ++ sign .semicolon :: rest))
      (xs ++ [.leaf gap, (calling callee args).tree]) rest := by
    rw [wordStatement_call hcallee]
    exact .call (.node_after rfl hgap (.andThen hexpr (reads_expect rfl rfl)))
  have hstatement : Leads body (.call .statement) xs
      (gap :: (call.tokens ++ sign .semicolon :: rest))
      (xs ++ [.leaf gap, (calling callee args).tree]) rest := by
    refine .call (.look ?_)
    rw [hahead]
    exact hword
  simpa [calling, call] using hstatement

end Forms

section Characters

theorem closed_listField (element name : Word) (value : Expr) :
    Closed (listField element name value).tokens := by
  refine ⟨fun _ => rfl, fun y => .cons (Token.stands_keyword (by decide) rfl) ?_⟩
  refine .cons (Token.stands_space rfl) (.cons (listWord.stands rfl) ?_)
  refine .cons (Token.stands_tight (by decide) (element.head_endsMark _ _)) ?_
  refine .cons (element.stands rfl) (.cons (Token.stands_tight (by decide) rfl) ?_)
  exact .cons (Token.stands_space (name.head_nonblank _ _)) (scans_declarator name value y)

theorem closed_constantField (name : Word) (value : Expr) :
    Closed (constantField name value).tokens := by
  refine ⟨fun _ => rfl, fun y => ?_⟩
  refine .cons (Token.stands_keyword (by decide) rfl) (.cons (Token.stands_space rfl) ?_)
  refine .cons (Token.stands_keyword (by decide) rfl) ?_
  exact .cons (Token.stands_space (name.head_nonblank _ _)) (scans_declarator name value y)

theorem closed_typedField (type : Word) (first : Word × Expr) (more : List (Word × Expr)) :
    Closed (typedField type first more).tokens := by
  have hall : ∀ w ∈ (first :: more).map declarator, Scanned w.tokens :=
    List.forall_mem_map.2 fun d _ => scanned_declarator d
  have hend := (Written.scanned_separated hall).closed
  refine ⟨fun _ => rfl, fun y => .cons (Token.stands_keyword (by decide) rfl) ?_⟩
  refine .cons (Token.stands_space (type.head_nonblank _ _)) (.cons (type.stands rfl) ?_)
  exact .cons (Token.stands_space (hend.head y)) (hend.scans y)

theorem closed_getter (type name : Word) (value : Expr) :
    Closed (getter type name value).tokens := by
  have hend := value.scanned.closed
  refine ⟨type.head_nonblank _, fun y => ?_⟩
  refine .cons (type.stands rfl) (.cons (Token.stands_space rfl) (.cons (getWord.stands rfl) ?_))
  refine .cons (Token.stands_space (name.head_nonblank _ _)) (.cons (name.stands rfl) ?_)
  refine .cons (Token.stands_space rfl) (.cons (Token.stands_loose (by decide) _) ?_)
  exact .cons (Token.stands_space (hend.head y)) (hend.scans y)

theorem scanned_param (p : Word × Word) : Scanned (param p).tokens := by
  refine ⟨p.1.head_nonblank _, fun y hy => .cons (p.1.stands rfl) ?_⟩
  exact .cons (Token.stands_space (p.2.head_nonblank _ _))
    (.cons (p.2.stands (ends_head hy rfl)) (.done y))

theorem scans_params (params : List (Word × Word)) {ts : List Token} {y : List Char}
    (h : Scans (chars ts ++ y) ts y) :
    Scans (chars (Written.separated (params.map param) ++ sign .rParen :: ts) ++ y)
      (Written.separated (params.map param) ++ sign .rParen :: ts) y :=
  .join (Written.scans_separated (List.forall_mem_map.2 fun p _ => scanned_param p) rfl)
    (.cons (Token.stands_loose (by decide) _) h)

theorem closed_constructor (name : Word) (params : List (Word × Word)) :
    Closed (constructor name params).tokens := by
  refine ⟨name.head_nonblank _, fun y => .cons (name.stands rfl) ?_⟩
  refine .cons (Token.stands_loose (by decide) _) (scans_params params ?_)
  exact .cons (Token.stands_loose (by decide) _) (.done y)

theorem closed_method (type name : Word) (params : List (Word × Word)) {block : Written}
    (hblock : Closed block.tokens) : Closed (method type name params block).tokens := by
  refine ⟨type.head_nonblank _, fun y => .cons (type.stands rfl) ?_⟩
  refine .cons (Token.stands_space (name.head_nonblank _ _)) (.cons (name.stands rfl) ?_)
  refine .cons (Token.stands_loose (by decide) _) (scans_params params ?_)
  exact .cons (Token.stands_space (hblock.head y)) (hblock.scans y)

theorem closed_blockOf {statements : List Written} (h : ∀ s ∈ statements, Closed s.tokens) :
    Closed (blockOf statements).tokens := by
  refine ⟨fun _ => rfl, fun y => .cons (Token.stands_loose (by decide) _) ?_⟩
  refine .join (Written.scans_behind (fun _ => Token.stands_space) h _) ?_
  exact .cons (Token.stands_space rfl) (.cons (Token.stands_loose (by decide) _) (.done y))

theorem closed_returning (value : Expr) : Closed (returning value).tokens := by
  have hend := value.scanned.closed
  refine ⟨fun _ => rfl, fun y => .cons (Token.stands_keyword (by decide) rfl) ?_⟩
  exact .cons (Token.stands_space (hend.head y)) (hend.scans y)

theorem closed_calling (callee : Word) (args : List Expr) : Closed (calling callee args).tokens :=
  (Expr.scanned (.chain (.call (.name callee) args))).closed

end Characters

namespace Node

variable {n : Node} {type name : Word} {value : Expr}

theorem exists_declarators {first : Word × Expr} {more : List (Word × Expr)}
    (h : n.tree = (typedField type first more).tree) :
    n.kind = .fieldDecl ∧
      (n.childrenOf .declarator).map tree =
        (first :: more).map fun d => declaratorTree d.1 d.2 := by
  have hall : ∀ w ∈ (first :: more).map declarator, w.tree.isNode = true :=
    List.forall_mem_map.2 fun _ _ => rfl
  have htrees : n.children.map tree =
      typeTree type :: (first :: more).map fun d => declaratorTree d.1 d.2 := by
    have hnodes := Written.filter_separatedTrees Tree.isNode_leaf hall
    rw [List.map_map] at hnodes
    rw [map_tree_children h, List.filter_append, List.filter_append, hnodes]
    simp [typeTree, declarator, Function.comp_def, List.filter_cons]
  obtain ⟨t, ds, hchildren, ht, hds⟩ := List.map_eq_cons_iff.1 htrees
  have hkinds : ∀ d ∈ ds, (d.kind == .declarator) = true := by
    intro d hd
    have hmem : d.tree ∈ (first :: more).map fun d => declaratorTree d.1 d.2 :=
      hds ▸ List.mem_map_of_mem hd
    obtain ⟨_, -, htree⟩ := List.mem_map.1 hmem
    rw [kind_of_tree htree.symm]
    rfl
  refine ⟨kind_of_tree h, ?_⟩
  rw [childrenOf, hchildren, List.filter_cons_of_neg (by simp [kind_of_tree ht]),
    List.filter_eq_self.2 hkinds, hds]

theorem exists_getter (h : n.tree = (getter type name value).tree) :
    n.kind = .getterDecl ∧ n.declName? = some name.1 ∧
      ∃ v, n.yielded? = some v ∧ v.tree = value.tree := by
  have hkind := kind_of_tree h
  have htrees : n.children.map tree = [typeTree type, nameTree name, arrowTree value] := by
    rw [map_tree_children h]
    rfl
  obtain ⟨t, rest, hchildren, ht, hrest⟩ := List.map_eq_cons_iff.1 htrees
  obtain ⟨label, b, rfl, hlabel, hb⟩ := exists_pair hrest
  obtain ⟨v, -, hfirst, hv⟩ := exists_firstExpr (e := value) hb (by simp)
  refine ⟨hkind, declName?_of_child (by rw [hkind]; rfl) ?_ hlabel, v, ?_, hv⟩
  · simp [child?, hchildren, kind_of_tree ht, kind_of_tree hlabel]
  · simp [yielded?, hkind, hchildren, kind_of_tree ht, kind_of_tree hlabel, kind_of_tree hb,
      bodyValue?, hfirst]

theorem exists_method {params : List (Word × Word)}
    (h : n.tree = (method type name params (blockOf [returning value])).tree) :
    n.kind = .methodDecl ∧ n.declName? = some name.1 ∧
      ∃ v, n.yielded? = some v ∧ v.tree = value.tree := by
  have hkind := kind_of_tree h
  have htrees : n.children.map tree =
      [typeTree type, nameTree name, paramListTree params, (blockOf [returning value]).tree] := by
    rw [map_tree_children h]
    rfl
  obtain ⟨t, rest, hchildren, ht, hrest⟩ := List.map_eq_cons_iff.1 htrees
  obtain ⟨label, rest, rfl, hlabel, hrest⟩ := List.map_eq_cons_iff.1 hrest
  obtain ⟨list, b, rfl, hlist, hb⟩ := exists_pair hrest
  obtain ⟨only, hstatements, honly⟩ := List.map_eq_singleton_iff.1 (map_tree_children hb)
  obtain ⟨v, -, hfirst, hv⟩ := exists_firstExpr (e := value) honly (by simp)
  refine ⟨hkind, declName?_of_child (by rw [hkind]; rfl) ?_ hlabel, v, ?_, hv⟩
  · simp [child?, hchildren, kind_of_tree ht, kind_of_tree hlabel]
  · simp [yielded?, hkind, hchildren, kind_of_tree ht, kind_of_tree hlabel, kind_of_tree hlist,
      kind_of_tree hb, bodyValue?, hstatements, kind_of_tree honly, hfirst]

theorem declName?_constructor {params : List (Word × Word)}
    (h : n.tree = (constructor name params).tree) :
    n.kind = .constructorDecl ∧ n.declName? = some name.1 := by
  have hkind := kind_of_tree h
  have htrees : n.children.map tree = [nameTree name, paramListTree params] := by
    rw [map_tree_children h]
    rfl
  obtain ⟨label, list, hchildren, hlabel, -⟩ := exists_pair htrees
  refine ⟨hkind, declName?_of_child (by rw [hkind]; rfl) ?_ hlabel⟩
  simp [child?, hchildren, kind_of_tree hlabel]

end Node

end CrossReference.Source
