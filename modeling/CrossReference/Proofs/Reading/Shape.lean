import CrossReference.Proofs.Reading.Contract
import CrossReference.Proofs.Reading.Naming

namespace CrossReference.Source

open Lookahead

namespace NodeKind

def holds (outer : NodeKind) : NodeKind → Bool
  | .declarator => outer == .fieldDecl || outer == .topLevelVar || outer == .localVar
  | .param => outer == .paramList
  | .classDecl => outer == .sourceFile
  | .methodDecl | .fieldDecl | .constructorDecl => outer == .classBody
  | _ => true

def isFree : NodeKind → Bool
  | .declarator | .param | .classDecl | .methodDecl | .fieldDecl | .constructorDecl => false
  | _ => true

theorem holds_of_isFree {kind : NodeKind} (h : kind.isFree = true) (outer : NodeKind) :
    outer.holds kind = true := by
  cases kind <;> first | rfl | cases h

theorem isFree_of_isExpr {kind : NodeKind} (h : kind.isExpr = true) : kind.isFree = true := by
  cases kind <;> first | rfl | cases h

end NodeKind

namespace Part

def Free : Part → Prop
  | .node kind => kind.isFree = true
  | .token _ => True

def Under (outer : NodeKind) : Part → Prop
  | .node kind => outer.holds kind = true
  | .token _ => True

@[simp] theorem free_node {kind : NodeKind} : Free (.node kind) ↔ kind.isFree = true := Iff.rfl

@[simp] theorem free_token {kind : TokenKind} : Free (.token kind) := trivial

@[simp] theorem under_node {outer kind : NodeKind} :
    Under outer (.node kind) ↔ outer.holds kind = true := Iff.rfl

@[simp] theorem under_token {outer : NodeKind} {kind : TokenKind} : Under outer (.token kind) :=
  trivial

theorem Free.under {p : Part} (h : p.Free) (outer : NodeKind) : p.Under outer := by
  cases p with
  | node kind => exact NodeKind.holds_of_isFree h outer
  | token => trivial

def node? : Part → Option NodeKind
  | .node kind => some kind
  | .token _ => none

end Part

namespace Grammar

open Step CrossReference.Source.Part

def nodes (ps : List Part) : List NodeKind := ps.filterMap Part.node?

@[simp] theorem nodes_append (ps qs : List Part) : nodes (ps ++ qs) = nodes ps ++ nodes qs := by
  simp [nodes]

@[simp] theorem nodes_nil : nodes [] = [] := rfl

@[simp] theorem nodes_node (kind : NodeKind) (ps : List Part) :
    nodes (.node kind :: ps) = kind :: nodes ps := rfl

@[simp] theorem nodes_token (kind : TokenKind) (ps : List Part) :
    nodes (.token kind :: ps) = nodes ps := rfl

theorem allOf_under_iff {outer : NodeKind} {ps : List Part} :
    AllOf (Under outer) ps ↔ ∀ kind ∈ nodes ps, outer.holds kind = true := by
  induction ps with
  | nil => simp
  | cons p ps ih => cases p <;> simp [ih]

/-- What references rely on, beyond the places of declarations. -/
@[simp] def counted : NodeKind → List Part → Prop
  | .memberExpr, ps => ∃ e, e.isExpr = true ∧ nodes ps = [e, .nameRef]
  | .callExpr, ps =>
    ∃ e, e.isExpr = true ∧
      (ps = [.node e, .node .argList] ∨ ps = [.node e, .node .typeArgs, .node .argList])
  | .stringLiteral, ps => ps ≠ [] ∧ AllOf (· = .token .string) ps
  | .declarator, ps => (nodes ps).count .name ≤ 1 ∧ (nodes ps).countP NodeKind.isExpr ≤ 1
  | .classDecl, ps => (nodes ps).count .name ≤ 1 ∧ (nodes ps).count .classBody ≤ 1
  | _, _ => True

@[simp] def isPlain : NodeKind → Bool
  | .memberExpr | .callExpr | .stringLiteral | .declarator | .classDecl => false
  | _ => true

theorem counted_of_isPlain {kind : NodeKind} (h : isPlain kind = true) (ps : List Part) :
    counted kind ps := by
  cases kind <;> first | exact True.intro | cases h

def fits (kind : NodeKind) (ps : List Part) : Prop := AllOf (Under kind) ps ∧ counted kind ps

def IsValue (ps : List Part) : Prop :=
  ps = [] ∨ ∃ kind, ps = [.node kind] ∧ (kind.isExpr = true ∨ kind = .error)

def IsDeclared (owner : Option String) (p : Part) : Prop :=
  p.Under .classBody ∧ (owner = none → p.Free)

def OfDeclarators (p : Part) : Prop := p = .node .declarator ∨ p = .token .comma

@[simp] def adds : Rule → List Part → Prop
  | .item => AllOf (Under .sourceFile)
  | .member _ => AllOf (Under .classBody)
  | .declaration owner => AllOf (IsDeclared owner)
  | .constructorRest | .functionRest | .functionBody _ | .statement => AllOf Free
  | .declarators => AllOf OfDeclarators
  | .expr | .unary | .operand => IsValue
  | .unsupportedItem => fun ps => ps = [.node .error]
  | .importDirective => fun ps => ps = [.node .importDirective]
  | .directive => fun ps => ps = [.node .directive]
  | .metadata => fun ps => ps = [.node .metadata]
  | .classDecl => fun ps => ps = [.node .classDecl]
  | .typeRef => fun ps => ps = [.node .typeRef]
  | .typeArgs => fun ps => ps = [.node .typeArgs]
  | .paramList => fun ps => ps = [.node .paramList]
  | .param => fun ps => ps = [.node .param]
  | .block => fun ps => ps = [.node .block]
  | .localVar => fun ps => ps = [.node .localVar]
  | .exprStmt => fun ps => ps = [.node .exprStmt]
  | .collection form => fun ps => ps = [.node form.nodeKind]
  | .newExpr => fun ps => ps = [.node .newExpr]
  | .argList => fun ps => ps = [.node .argList]

def shaping : Shaping Rule := ⟨fits, adds⟩

@[simp] theorem shaping_fits : shaping.fits = fits := rfl

@[simp] theorem shaping_adds : shaping.adds = adds := rfl

section Parts

variable {ps : List Part}

theorem IsValue.free (h : IsValue ps) : AllOf Free ps := by
  rcases h with rfl | ⟨kind, rfl, h | rfl⟩
  · simp
  · simpa using NodeKind.isFree_of_isExpr h
  · simp [NodeKind.isFree]

@[simp] theorem gives_free_under (outer : NodeKind) : Gives (AllOf Free) (Under outer) :=
  fun _ h => h.imp fun _ h => h.under outer

@[simp] theorem gives_value_under (outer : NodeKind) : Gives IsValue (Under outer) :=
  fun _ h => gives_free_under outer _ h.free

@[simp] theorem gives_declared (owner : Option String) :
    Gives (AllOf (IsDeclared owner)) (Under .classBody) :=
  fun _ h => h.imp fun _ h => h.1

@[simp] theorem gives_topLevel (outer : NodeKind) :
    Gives (AllOf (IsDeclared none)) (Under outer) :=
  fun _ h => h.imp fun _ h => (h.2 rfl).under outer

@[simp] theorem gives_declarators (outer : NodeKind) (houter : outer.holds .declarator = true) :
    Gives (AllOf OfDeclarators) (Under outer) := by
  refine fun _ h => h.imp ?_
  rintro p (rfl | rfl)
  · exact houter
  · trivial

end Parts

section Forms

variable {post : Assertion} {ps : List Part} {ts : List Token} {P : Part → Prop}

@[simp] theorem keeps_ite (c : Prop) [Decidable c] (s t : Act) :
    (if c then s else t).Keeps shaping P ↔
      (c → s.Keeps shaping P) ∧ (¬ c → t.Keeps shaping P) := by
  split <;> simp [*]

@[simp] theorem keeps_given (test : List Token → Bool) (s : Act) :
    (given test s).Keeps shaping P ↔ ((∃ ts, test ts = true) → s.Keeps shaping P) := by
  simp [given]

theorem keeps_takeMany (n : Nat) (h : ∀ kind, P (.token kind)) :
    (takeMany n).Keeps shaping P := by
  induction n with
  | zero => trivial
  | succ n ih => exact ⟨h, ih⟩

@[simp] theorem closes_plain {kind : NodeKind} {s : Act}
    (h : isPlain kind = true ∧ s.Keeps shaping (Under kind)) : s.Closes shaping kind := by
  intro ts
  refine needs_of_keeps h.2 fun rs _ hrs => ⟨?_, counted_of_isPlain h.1 _⟩
  simpa using hrs

theorem needs_node {kind : NodeKind} {s : Act} (h : s.Closes shaping kind)
    (hpost : ∀ us, post (ps ++ [.node kind]) us) : (Step.node kind s).needs shaping post ps ts :=
  needs_mono (s := s) (fun _ us hfits => ⟨hfits, hpost us⟩) (h ts)

theorem needs_wrap {kind : NodeKind} {s : Act} (hplain : isPlain kind = true)
    (hps : AllOf Free ps) (h : s.Keeps shaping (Under kind))
    (hpost : ∀ us, post [.node kind] us) : (Step.wrap kind s).needs shaping post ps ts := by
  refine needs_of_keeps (s := s) h fun rs us hrs => ⟨⟨?_, counted_of_isPlain hplain _⟩, hpost us⟩
  exact allOf_append.2 ⟨gives_free_under kind _ hps, hrs⟩

@[simp] theorem keeps_takeGroup (h : ∀ kind, P (.token kind)) : takeGroup.Keeps shaping P :=
  fun _ => keeps_takeMany _ h

@[simp] theorem keeps_eat (kind : TokenKind) (h : ∀ kind, P (.token kind)) :
    (eat kind).Keeps shaping P := by
  simp [eat, h]

@[simp] theorem keeps_expect (kind : TokenKind) (h : ∀ kind, P (.token kind)) :
    (expect kind).Keeps shaping P := by
  simp [expect, h]

@[simp] theorem keeps_qualifiers (h : ∀ kind, P (.token kind)) : qualifiers.Keeps shaping P := by
  simp [qualifiers, inOrder, h]

@[simp] theorem keeps_name (h : P (.node .name)) : name.Keeps shaping P := by
  simp [name, h]

@[simp] theorem keeps_skipGroup (message : String) (h : P (.node .error)) :
    (skipGroup message).Keeps shaping P := by
  simp [skipGroup, inOrder, h]

end Forms

section Uniform

variable {ps : List Part} {ts : List Token}

theorem respects_keeps {s : Act} {P : Part → Prop} (h : s.Keeps shaping P) :
    s.needs shaping (fun qs _ => GoesOn (AllOf P) ps qs) ps ts :=
  needs_of_keeps h fun _ _ hrs => goesOn_append.2 hrs

theorem respects_node {s : Act} {kind : NodeKind} (h : s.Closes shaping kind) :
    (Step.node kind s).needs shaping (fun qs _ => GoesOn (· = [.node kind]) ps qs) ps ts :=
  needs_node h fun _ => goesOn_append.2 rfl

end Uniform

section Declarations

variable {owner : Option String} {ps : List Part} {ts : List Token}

theorem needs_declared {kind : NodeKind} {s : Act} (hps : AllOf Free ps)
    (hkind : IsDeclared owner (.node kind)) (hplain : isPlain kind = true)
    (h : s.Keeps shaping (Under kind)) :
    (Step.wrap kind s).needs shaping (fun qs _ => AllOf (IsDeclared owner) qs) ps ts :=
  needs_wrap hplain hps h fun _ => by simpa using hkind

theorem isDeclared_functionKind : IsDeclared owner (.node (functionKind owner)) := by
  cases owner <;> simp [IsDeclared, functionKind, NodeKind.holds, NodeKind.isFree]

theorem isDeclared_variablesKind : IsDeclared owner (.node (variablesKind owner)) := by
  cases owner <;> simp [IsDeclared, variablesKind, NodeKind.holds, NodeKind.isFree]

theorem needs_function {s : Act} (hps : AllOf Free ps)
    (h : ∀ kind, s.Keeps shaping (Under kind)) :
    (Step.wrap (functionKind owner) s).needs shaping (fun qs _ => AllOf (IsDeclared owner) qs)
      ps ts := by
  refine needs_declared hps isDeclared_functionKind ?_ (h _)
  cases owner <;> rfl

theorem needs_variables {s : Act} (hps : AllOf Free ps)
    (h : ∀ kind : NodeKind, kind.holds .declarator = true → s.Keeps shaping (Under kind)) :
    (Step.wrap (variablesKind owner) s).needs shaping (fun qs _ => AllOf (IsDeclared owner) qs)
      ps ts := by
  refine needs_declared hps isDeclared_variablesKind ?_ (h _ ?_)
  · cases owner <;> rfl
  · cases owner <;> rfl

theorem owner_of_atConstructor (h : atConstructor owner ts = true) : owner ≠ none := by
  rintro rfl
  cases hw : word? ts <;> simp [atConstructor, hw] at h

theorem needs_typedDeclaration (hps : AllOf Free ps) (named : List Token) :
    (typedDeclaration owner named).needs shaping (fun qs _ => AllOf (IsDeclared owner) qs)
      ps ts := by
  rw [typedDeclaration]
  split
  · refine needs_declared hps ?_ (by simp) ?_
    · simp [IsDeclared, NodeKind.holds, NodeKind.isFree]
    · simp [inOrder, NodeKind.holds]
  · split
    · refine needs_function hps fun kind => ?_
      simp [inOrder, NodeKind.holds]
    · split
      · refine needs_declared hps ?_ (by simp) ?_
        · simp [IsDeclared, NodeKind.holds, NodeKind.isFree]
        · simp [inOrder]
      · split
        · refine needs_function hps fun kind => ?_
          simp [inOrder, NodeKind.holds]
        · refine needs_variables hps fun kind hkind => ?_
          have htype : kind.holds .typeRef = true := rfl
          simp [inOrder, htype, hkind]

theorem needs_declarationForm (hps : AllOf Free ps) :
    (declarationForm owner ts).needs shaping (fun qs _ => AllOf (IsDeclared owner) qs) ps ts := by
  rw [declarationForm]
  split
  · next hc =>
    refine needs_declared hps ?_ (by simp) ?_
    · simp [IsDeclared, NodeKind.holds, owner_of_atConstructor hc]
    · simp
  · split
    · refine needs_declared hps ?_ (by simp) ?_
      · simp [IsDeclared, NodeKind.holds, NodeKind.isFree]
      · simp [inOrder, NodeKind.holds]
    · split
      · refine needs_function hps fun kind => ?_
        simp [inOrder]
      · split
        · exact needs_typedDeclaration hps _
        · split
          · refine needs_function hps fun kind => ?_
            simp
          · split
            · refine needs_variables hps fun kind hkind => ?_
              simp [inOrder, hkind]
            · refine needs_declared hps ?_ (by simp) ?_
              · simp [IsDeclared, NodeKind.holds, NodeKind.isFree]
              · simp [inOrder]

theorem needs_declaration : (declaration owner).needs shaping
    (fun qs _ => GoesOn (AllOf (IsDeclared owner)) ps qs) ps ts := by
  refine needs_of_keeps (s := .repeatWhile atModifier .take) (P := Free) (by simp)
    fun rs us hrs => ?_
  refine needs_mono (fun qs _ => goesOn_append.2) (needs_declarationForm hrs)

end Declarations

section Values

variable {ps : List Part} {ts : List Token} {post : Assertion}

theorem needs_take (h : ∀ marks us, nodes marks = [] → post (ps ++ marks) us) :
    (Step.take : Act).needs shaping post ps ts := by
  cases ts with
  | nil =>
    have hnone := h [] [] rfl
    rwa [List.append_nil] at hnone
  | cons t ts => exact h [.token t.kind] ts rfl

theorem needs_name
    (h : ∀ named us, nodes named = [] ∨ nodes named = [.name] → post (ps ++ named) us) :
    name.needs shaping post ps ts := by
  simp only [name, needs]
  split
  · exact needs_node (by simp) fun us => h _ us (.inr rfl)
  · have hnone := h [] ts (.inl rfl)
    rwa [List.append_nil] at hnone

theorem needs_given {test : List Token → Bool} {s : Act} (h : s.needs shaping post ps ts)
    (hskip : post ps ts) : (given test s).needs shaping post ps ts := by
  simp only [given, needs]
  split
  · exact h
  · exact hskip

theorem fits_declarator {named marks value : List Part}
    (hnamed : nodes named = [] ∨ nodes named = [.name]) (hmarks : nodes marks = [])
    (hvalue : IsValue value) : fits .declarator (named ++ marks ++ value) := by
  have hcount : (nodes value).count .name = 0 ∧ (nodes value).countP NodeKind.isExpr ≤ 1 := by
    rcases hvalue with rfl | ⟨kind, rfl, h | rfl⟩
    · simp
    · have hkind : kind ≠ .name := by
        rintro rfl
        cases h
      simp [hkind, h]
    · simp [NodeKind.isExpr]
  have hvalue := gives_value_under .declarator _ hvalue
  rw [allOf_under_iff] at hvalue
  rcases hnamed with hnamed | hnamed
  · refine ⟨?_, ?_⟩
    · simpa [allOf_under_iff, hnamed, hmarks] using hvalue
    · simp [hnamed, hmarks, hcount]
  · refine ⟨?_, ?_⟩
    · simpa [allOf_under_iff, hnamed, hmarks] using ⟨rfl, hvalue⟩
    · simp [hnamed, hmarks, hcount, NodeKind.isExpr]

theorem closes_declarator : Closes shaping .declarator <|
    inOrder [name, given (startsWith .eq) (inOrder [.take, .call .expr])] := by
  intro ts
  refine needs_name fun named us hnamed => needs_given ?_ ?_
  · refine needs_take fun marks vs hmarks value ws hvalue => ?_
    exact fits_declarator hnamed hmarks hvalue
  · have hfits : fits .declarator (named ++ [] ++ []) := fits_declarator hnamed rfl (.inl rfl)
    simpa using hfits

def InHeader (p : Part) : Prop :=
  p = .node .typeRef ∨ p = .node .typeArgs ∨ ∃ kind, p = .token kind

theorem nodes_header {ps : List Part} (h : AllOf InHeader ps) :
    ∀ kind ∈ nodes ps, kind = .typeRef ∨ kind = .typeArgs := by
  induction ps with
  | nil => simp
  | cons p ps ih =>
    obtain ⟨hp, hps⟩ := allOf_cons.1 h
    rcases hp with rfl | rfl | ⟨kind, rfl⟩
    · simpa using ih hps
    · simpa using ih hps
    · exact ih hps

theorem fits_classDecl {head named middle tail : List Part} (hhead : AllOf InHeader head)
    (hnamed : nodes named = [] ∨ nodes named = [.name]) (hmiddle : AllOf InHeader middle)
    (htail : nodes tail = [] ∨ nodes tail = [.classBody]) :
    fits .classDecl (head ++ named ++ middle ++ tail) := by
  have hcount {ps : List Part} (h : AllOf InHeader ps) :
      (nodes ps).count .name = 0 ∧ (nodes ps).count .classBody = 0 := by
    simp only [List.count_eq_zero]
    constructor
    · exact fun hk => by simpa using nodes_header h _ hk
    · exact fun hk => by simpa using nodes_header h _ hk
  have hunder {ps : List Part} (h : AllOf InHeader ps) : AllOf (Under .classDecl) ps := by
    refine h.imp ?_
    rintro p (rfl | rfl | ⟨kind, rfl⟩) <;> trivial
  refine ⟨?_, ?_⟩
  · simp only [allOf_append]
    refine ⟨⟨⟨hunder hhead, ?_⟩, hunder hmiddle⟩, ?_⟩
    · rw [allOf_under_iff]
      rcases hnamed with h | h <;> rw [h] <;> decide
    · rw [allOf_under_iff]
      rcases htail with h | h <;> rw [h] <;> decide
  · rcases hnamed with hnamed | hnamed <;> rcases htail with htail | htail
    all_goals simp [hnamed, htail, hcount hhead, hcount hmiddle]

theorem closes_classDecl : Closes shaping .classDecl <| inOrder
    [eat .abstractKw,
     expect .classKw,
     .look fun ts => inOrder
      [name,
       given (startsWith .lAngle) (.call .typeArgs),
       .repeatWhile (startsWithAny [.extendsKw, .withKw, .implementsKw, .comma])
        (inOrder [.take, given (startsWith .ident) (.call .typeRef)]),
       .look fun us =>
        if startsWith .lBrace us then classBody (word? ts)
        else .report "expected a class body"]] := by
  intro ts
  have htoken : ∀ kind, InHeader (.token kind) := fun kind => .inr (.inr ⟨kind, rfl⟩)
  have htype : InHeader (.node .typeRef) ∧ InHeader (.node .typeArgs) :=
    ⟨.inl rfl, .inr (.inl rfl)⟩
  refine needs_of_keeps (s := eat _) (P := InHeader) (by simp [htoken]) fun xs ts hxs => ?_
  refine needs_of_keeps (s := expect _) (P := InHeader) (by simp [htoken]) fun ys ts hys => ?_
  refine needs_name fun named us hnamed => ?_
  refine needs_of_keeps (s := given _ _) (P := InHeader) (by simp [htype]) fun zs ts hzs => ?_
  refine needs_of_keeps (s := .repeatWhile _ _) (P := InHeader) (by simp [inOrder, htoken, htype])
    fun ws ts hws => ?_
  have hfits (tail : List Part) (h : nodes tail = [] ∨ nodes tail = [.classBody]) :
      fits .classDecl ([] ++ xs ++ ys ++ named ++ zs ++ ws ++ tail) := by
    have hall := fits_classDecl (allOf_append.2 ⟨hxs, hys⟩) hnamed (allOf_append.2 ⟨hzs, hws⟩) h
    simpa using hall
  simp only [inOrder, needs]
  split
  · exact needs_node (by simp [inOrder, NodeKind.holds]) fun _ => hfits _ (.inr rfl)
  · have hnone := hfits [] (.inl rfl)
    rwa [List.append_nil] at hnone

def IsExpr (ps : List Part) : Prop := ∃ kind, kind.isExpr = true ∧ ps = [.node kind]

theorem IsExpr.value (h : IsExpr ps) : IsValue ps := by
  obtain ⟨kind, hkind, rfl⟩ := h
  exact .inr ⟨kind, rfl, .inl hkind⟩

theorem fits_member {marks : List Part} (hps : IsExpr ps) (hmarks : nodes marks = []) :
    fits .memberExpr (ps ++ marks ++ [.node .nameRef]) := by
  obtain ⟨kind, hkind, rfl⟩ := hps
  have hnodes : nodes ([.node kind] ++ marks ++ [.node .nameRef]) = [kind, .nameRef] := by
    simp [hmarks]
  refine ⟨?_, kind, hkind, hnodes⟩
  have hholds := NodeKind.holds_of_isFree (NodeKind.isFree_of_isExpr hkind) .memberExpr
  rw [allOf_under_iff, hnodes]
  exact List.forall_mem_cons.2 ⟨hholds, by decide⟩

theorem fits_call {typed : List Part} (hps : IsExpr ps)
    (htyped : typed = [] ∨ typed = [.node .typeArgs]) :
    fits .callExpr (ps ++ typed ++ [.node .argList]) := by
  obtain ⟨kind, hkind, rfl⟩ := hps
  have hholds := NodeKind.holds_of_isFree (NodeKind.isFree_of_isExpr hkind) .callExpr
  refine ⟨?_, kind, hkind, ?_⟩
  · rw [allOf_under_iff]
    rcases htyped with rfl | rfl <;> exact List.forall_mem_cons.2 ⟨hholds, by decide⟩
  · rcases htyped with rfl | rfl <;> simp

theorem needs_member (hps : IsExpr ps) (hpost : ∀ us, post [.node .memberExpr] us) :
    (Step.wrap .memberExpr (inOrder [.take, nameRef]) : Act).needs shaping post ps ts := by
  refine needs_take fun marks us hmarks => ?_
  refine needs_node (by simp) fun vs => ⟨?_, hpost vs⟩
  exact fits_member hps hmarks

theorem needs_call (hps : IsExpr ps) (hpost : ∀ us, post [.node .callExpr] us) :
    (Step.wrap .callExpr (.call .argList) : Act).needs shaping post ps ts := by
  rintro rs us rfl
  have hfits : fits .callExpr (ps ++ [] ++ [.node .argList]) := fits_call hps (.inl rfl)
  rw [List.append_nil] at hfits
  exact ⟨hfits, hpost us⟩

theorem needs_typedCall (hps : IsExpr ps) (hpost : ∀ us, post [.node .callExpr] us) :
    (Step.wrap .callExpr (inOrder [.call .typeArgs, .call .argList]) : Act).needs shaping post
      ps ts := by
  rintro xs us rfl ys vs rfl
  exact ⟨fits_call hps (.inr rfl), hpost vs⟩

theorem isExpr_single {kind : NodeKind} (h : kind.isExpr = true) : IsExpr [.node kind] :=
  ⟨kind, h, rfl⟩

theorem keeps_constructorCall : constructorCall.Keeps shaping (Under .newExpr) := by
  intro ts
  have under {qs : List Part} (h : IsExpr qs) : AllOf (Under .newExpr) qs :=
    gives_value_under _ _ h.value
  refine needs_node (by simp) fun us => ?_
  refine ⟨fun qs _ => IsExpr qs, isExpr_single rfl, fun qs vs hk => ?_⟩
  split
  · exact needs_member hk fun _ => isExpr_single rfl
  · simp only [inOrder, needs]
    split
    · refine needs_given ?_ ?_
      · rintro xs us rfl ys vs rfl
        exact ⟨fits_call hk (.inr rfl), under (isExpr_single rfl)⟩
      · rintro ys vs rfl
        have hfits : fits .callExpr (qs ++ [] ++ [.node .argList]) := fits_call hk (.inl rfl)
        rw [List.append_nil] at hfits
        exact ⟨hfits, under (isExpr_single rfl)⟩
    · exact under hk

theorem needs_strings (hts : startsWith .string ts = true) :
    (Step.repeatWhile (startsWith .string) .take : Act).needs shaping
      (fun qs _ => fits .stringLiteral qs) [] ts := by
  refine ⟨fun qs us => AllOf (· = .token .string) qs ∧ (qs = [] → startsWith .string us = true),
    ⟨by simp, fun _ => hts⟩, ?_⟩
  rintro qs us ⟨hall, hsome⟩
  split
  · next ht =>
    obtain ⟨t, ts, rfl⟩ := List.exists_cons_of_ne_nil (ne_nil_of_startsWith ht)
    have hkind : t.kind = .string := by simpa [startsWith, kind?] using ht
    exact ⟨by simp [hall, hkind], by simp⟩
  · next ht =>
    refine ⟨hall.imp ?_, fun hnil => ht (hsome hnil), hall⟩
    rintro p rfl
    trivial

theorem needs_primary {s : Act} (h : primary? ts = some s) :
    s.needs shaping (fun qs _ => IsExpr qs) [] ts := by
  rcases primary?_cases h with rfl | rfl | rfl | ⟨form, hf, rfl⟩ | rfl | rfl | ⟨hne, rfl⟩
  · exact needs_node (by simp) fun _ => isExpr_single rfl
  · exact needs_node (by simp) fun _ => isExpr_single rfl
  · refine needs_mono (s := .repeatWhile _ _) (fun qs us hfits => ⟨hfits, isExpr_single rfl⟩) ?_
    exact needs_strings (startsWith_string_of_primary h)
  · rintro rs us rfl
    cases form <;> exact isExpr_single rfl
  · rintro rs us rfl
    exact isExpr_single rfl
  · exact needs_node (by simp [inOrder, NodeKind.holds]) fun _ => isExpr_single rfl
  · exact needs_node (by simp [inOrder]) fun _ => isExpr_single rfl

theorem needs_suffix {s : Act} (h : suffix? ts = some s) (hps : IsExpr ps) :
    s.needs shaping (fun qs _ => IsExpr qs) ps ts := by
  obtain ⟨-, rfl | ⟨-, rfl⟩ | rfl | rfl | rfl⟩ := suffix?_cases h
  · exact needs_member hps fun _ => isExpr_single rfl
  · exact needs_call hps fun _ => isExpr_single rfl
  · exact needs_typedCall hps fun _ => isExpr_single rfl
  · exact needs_wrap rfl hps.value.free (by simp [inOrder]) fun _ => isExpr_single rfl
  · exact needs_wrap rfl hps.value.free (by simp) fun _ => isExpr_single rfl

theorem needs_operand : operand.needs shaping (fun qs _ => GoesOn IsValue ps qs) ps ts := by
  simp only [operand, needs]
  cases h : primary? ts with
  | none =>
    simp only [missingExpr, inOrder]
    refine needs_given ?_ ?_
    · refine needs_node (by simp) fun _ => goesOn_append.2 ?_
      exact .inr ⟨_, rfl, .inr rfl⟩
    · exact goesOn_append.2 (.inl rfl)
  | some primary =>
    refine needs_mono (s := primary) (fun qs us hqs => ?_) (needs_primary h)
    refine ⟨fun qs _ => IsExpr qs, hqs, fun qs us hk => ?_⟩
    split
    · next ht =>
      obtain ⟨s, hs⟩ := Option.isSome_iff_exists.1 ht
      simpa [needs, hs] using needs_suffix hs hk
    · exact goesOn_append.2 hk.value

theorem needs_expr : expr.needs shaping (fun qs _ => GoesOn IsValue ps qs) ps ts := by
  intro rs us hrs
  refine ⟨fun qs _ => IsValue qs, hrs, fun qs vs hk => ?_⟩
  split
  · refine needs_wrap rfl hk.free (by simp [inOrder, NodeKind.holds]) fun _ => ?_
    exact .inr ⟨_, rfl, .inl rfl⟩
  · exact goesOn_append.2 hk

theorem needs_unary : unary.needs shaping (fun qs _ => GoesOn IsValue ps qs) ps ts := by
  simp only [unary, needs]
  split
  · refine needs_node (by simp [inOrder]) fun _ => goesOn_append.2 ?_
    exact .inr ⟨_, rfl, .inl rfl⟩
  · exact fun rs _ hrs => goesOn_append.2 hrs

theorem needs_importUri {k : NodeKind} (hk : k.holds .stringLiteral = true) (message : String)
    (hpost : ∀ rs us, AllOf (Under k) rs → post (ps ++ rs) us) :
    (Step.look fun ts => if startsWith .string ts then .node .stringLiteral .take
      else .report message : Act).needs shaping post ps ts := by
  simp only [needs]
  split
  · next ht =>
    obtain ⟨t, ts, rfl⟩ := List.exists_cons_of_ne_nil (ne_nil_of_startsWith ht)
    have hkind : t.kind = .string := by simpa [startsWith, kind?] using ht
    refine ⟨⟨by simp, by simp [hkind]⟩, hpost [.node .stringLiteral] ts (by simpa using hk)⟩
  · have hnone := hpost [] ts (by simp)
    rwa [List.append_nil] at hnone

end Values

theorem keeps_wordStatement (ts : List Token) : (wordStatement ts).Keeps shaping Free := by
  rw [wordStatement]
  cases typedName? ts <;> simp [inOrder, NodeKind.isFree, NodeKind.holds]

theorem respects_shaping : shaping.Respects body := by
  intro rule ps ts
  cases rule with
  | item =>
    refine respects_keeps ?_
    simp [body, item, NodeKind.holds]
  | importDirective =>
    refine respects_node fun ts => ?_
    refine needs_of_keeps (s := .take) (P := Under .importDirective) (by simp) fun xs us hxs => ?_
    refine needs_importUri (k := .importDirective) rfl _ fun ys vs hys => ?_
    refine needs_of_keeps (P := Under .importDirective) (by simp [inOrder]) fun zs ws hzs => ?_
    exact ⟨by simp [hxs, hys, hzs], trivial⟩
  | directive | metadata | unsupportedItem | typeRef | typeArgs =>
    refine respects_node (closes_plain ?_)
    simp [inOrder, NodeKind.holds]
  | classDecl => exact respects_node closes_classDecl
  | member owner =>
    refine respects_keeps ?_
    simp [body, member, NodeKind.holds]
  | declaration owner => exact needs_declaration
  | constructorRest =>
    refine respects_keeps ?_
    simp [body, constructorRest, inOrder, NodeKind.isFree]
  | functionRest =>
    refine respects_keeps ?_
    simp [body, functionRest, inOrder, NodeKind.isFree]
  | declarators =>
    refine respects_keeps ?_
    simp [body, declarators, OfDeclarators, closes_declarator]
  | paramList | param =>
    refine respects_node (closes_plain ?_)
    simp [inOrder, parameterOrMark, NodeKind.holds]
  | functionBody e =>
    refine respects_keeps ?_
    simp [body, functionBody, inOrder, bodyMark, NodeKind.isFree]
  | statement =>
    refine respects_keeps ?_
    simp [body, statement, inOrder, guardedBlock, NodeKind.isFree, NodeKind.holds,
      keeps_wordStatement]
  | block | localVar | exprStmt =>
    refine respects_node (closes_plain ?_)
    simp [inOrder, NodeKind.holds]
  | expr => exact needs_expr
  | unary => exact needs_unary
  | operand => exact needs_operand
  | argList =>
    refine respects_node (closes_plain ?_)
    simp [inOrder, argument, NodeKind.holds]
  | newExpr =>
    refine respects_node (closes_plain ?_)
    simp [inOrder, keeps_constructorCall]
  | collection form =>
    refine respects_node (closes_plain ?_)
    cases form <;> simp [inOrder, element, NodeKind.holds, CollectionForm.nodeKind]

theorem keeps_file : file.Keeps shaping (Under .sourceFile) := by
  simp [file, NodeKind.holds]

end Grammar

namespace Parse

open Grammar

theorem shaped_tree (tokens : List Token) : (ofTokens tokens).tree.Shaped shaping := by
  have hstart : (Builder.ofTokens tokens).Aligned := (Builder.reads_ofTokens tokens).aligned
  have hfile (ts : List Token) :
      file.needs shaping (fun qs _ => Step.AllOf (Part.Under .sourceFile) qs) [] ts :=
    Step.needs_of_keeps keeps_file fun _ _ h => h
  obtain ⟨hshaped, hunder⟩ := (runs_file tokens).shaped respects_shaping hstart
    (by simp [Builder.Shaped, Builder.ofTokens]) (hfile _)
  refine hshaped.attach.node ⟨?_, trivial⟩
  rw [Builder.parts_attach ((runs_file tokens).aligned hstart)]
  exact hunder

end Parse

end CrossReference.Source
