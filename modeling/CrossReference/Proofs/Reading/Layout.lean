import CrossReference.Proofs.Reading.Frame

/-!
Layout does not matter to a well-formed file. Two files with the same significant tokens are read
side by side. Trivia decide only whether a step moved, and in a file without errors a step that
moved took a token.
-/

namespace CrossReference.Source

open Lookahead

namespace Tree

mutual

def bare : Tree → List Tree
  | .node kind children => [.node kind (bareAll children)]
  | .leaf t => if t.isTrivia then [] else [.leaf t]

def bareAll : List Tree → List Tree
  | [] => []
  | t :: ts => t.bare ++ bareAll ts

end

@[simp] theorem bareAll_append (xs ys : List Tree) :
    bareAll (xs ++ ys) = bareAll xs ++ bareAll ys := by
  induction xs with
  | nil => simp [bareAll]
  | cons x xs ih => simp [bareAll, ih]

theorem bareAll_trivia {gap : List Token} (h : ∀ g ∈ gap, g.isTrivia) :
    bareAll (gap.map .leaf) = [] := by
  induction gap with
  | nil => rfl
  | cons g gap ih =>
    obtain ⟨hg, hgap⟩ := List.forall_mem_cons.1 h
    simp [bareAll, bare, hg, ih hgap]

end Tree

namespace Builder

def bare (b : Builder) : List Tree := Tree.bareAll b.built.reverse

theorem bare_attach {b : Builder} (h : b.Aligned) : b.attach.bare = b.bare := by
  simp [bare, attach, Tree.bareAll_trivia h.pending_trivia]

theorem bare_take {b : Builder} {t : Token} {ts : List Token} (h : b.Aligned)
    (ha : b.ahead = t :: ts) : b.take.bare = b.bare ++ Tree.bareAll [.leaf t] := by
  rw [← bare_attach h, take_of_cons ha]
  simp [bare]

/-- Two files half read that differ in trivia, and in what was taken of them, only. -/
structure Alike (b c : Builder) : Prop where
  left : b.Aligned
  right : c.Aligned
  ahead : c.ahead = b.ahead
  bare : c.bare = b.bare

namespace Alike

variable {b c inner inner' : Builder}

theorem same {b' c' : Builder} (h : b.Alike c) (hb : b'.Aligned) (hc : c'.Aligned)
    (hba : b'.ahead = b.ahead) (hca : c'.ahead = c.ahead)
    (hbb : b'.bare = b.bare) (hcb : c'.bare = c.bare) : b'.Alike c' :=
  ⟨hb, hc, by rw [hca, h.ahead, hba], by rw [hcb, h.bare, hbb]⟩

theorem attach (h : b.Alike c) : b.attach.Alike c.attach :=
  h.same h.left.attach h.right.attach rfl rfl (bare_attach h.left) (bare_attach h.right)

theorem take (h : b.Alike c) : b.take.Alike c.take := by
  cases ha : b.ahead with
  | nil =>
    rw [take_of_nil ha, take_of_nil (h.ahead.trans ha)]
    exact h.attach
  | cons t ts =>
    have hc : c.ahead = t :: ts := h.ahead.trans ha
    refine ⟨h.left.take, h.right.take, ?_, ?_⟩
    · rw [take_of_cons ha, take_of_cons hc]
    · rw [bare_take h.left ha, bare_take h.right hc, h.bare]

theorem opened (h : b.Alike c) : b.opened.Alike c.opened :=
  ⟨h.left.attach.same rfl rfl rfl, h.right.attach.same rfl rfl rfl, h.ahead, rfl⟩

theorem closeNode (kind : NodeKind) (h : b.Alike c) (hi : inner.Alike inner') :
    (b.closeNode kind inner).Alike (c.closeNode kind inner') := by
  refine ⟨hi.left.same rfl rfl rfl, hi.right.same rfl rfl rfl, hi.ahead, ?_⟩
  have hout := h.attach.bare
  have hin := hi.bare
  simp only [Builder.bare] at hout hin ⊢
  simp [Builder.closeNode, hout, hin, Tree.bareAll, Tree.bare]

theorem closeGroup (h : b.Alike c) (hi : inner.Alike inner') :
    (b.closeGroup inner).Alike (c.closeGroup inner') := by
  refine ⟨hi.left.same rfl rfl rfl, hi.right.same rfl rfl rfl, hi.ahead, ?_⟩
  have hout := h.attach.bare
  have hin := hi.bare
  simp only [Builder.bare] at hout hin ⊢
  simp [Builder.closeGroup, hout, hin]

theorem wrap (kind : NodeKind) (h : b.Alike c) : (b.wrap kind).Alike (c.wrap kind) := by
  refine ⟨h.left.same rfl rfl rfl, h.right.same rfl rfl rfl, h.ahead, ?_⟩
  have hin := h.bare
  simp only [Builder.bare] at hin ⊢
  simp [Builder.wrap, hin, Tree.bareAll, Tree.bare]

end Alike

end Builder

namespace Step

variable {ρ : Type} {grammar : ρ → Step ρ}

/-- Whether a step is sure to take a token or to report something when `ts` are ahead, if every
rule does when there is a token ahead. -/
@[simp] def Responds : Step ρ → List Token → Prop
  | .done, _ => False
  | .take, ts => ts ≠ []
  | .report _, _ => True
  | .look choose, ts => (choose ts).Responds ts
  | .andThen first second, ts => first.Responds ts ∨ second.Responds ts
  | .node _ body, ts | .group body, ts | .wrap _ body, ts => body.Responds ts
  | .insist body _, ts => body.Responds ts
  | .repeatWhile test body, ts | .commaList test body, ts => test ts = true ∧ body.Responds ts
  | .call _, ts => ts ≠ []

/-- Whether a step insists on rules only and reports where one did not move. -/
@[simp] def Complains : Step ρ → Prop
  | .done | .take | .report _ | .call _ => True
  | .look choose => ∀ ts, (choose ts).Complains
  | .andThen first second => first.Complains ∧ second.Complains
  | .node _ body | .group body | .wrap _ body => body.Complains
  | .insist body recovery =>
    (∃ rule, body = .call rule) ∧ ∃ message rest, recovery = .andThen (.report message) rest
  | .repeatWhile _ body | .commaList _ body => body.Complains

namespace Runs

theorem ahead_suffix {s : Step ρ} {b b' : Builder} (h : Runs grammar s b b') :
    b'.ahead <:+ b.ahead := by
  have taken (x : Builder) : x.take.ahead <:+ x.ahead := by
    cases hx : x.ahead with
    | nil =>
      rw [Builder.take_of_nil hx]
      exact hx ▸ List.suffix_refl _
    | cons t ts =>
      rw [Builder.take_of_cons hx]
      exact List.suffix_cons t ts
  induction h with
  | done | repeatStop | commaStop | report => exact List.suffix_refl _
  | take b => exact taken b
  | look _ ih | call _ ih | wrap _ ih => exact ih
  | node _ ih | group _ ih => exact ih
  | andThen _ _ ihs iht => exact iht.trans ihs
  | insistMoved _ _ ih | commaLast _ _ _ ih => exact ih
  | insistStuck _ _ _ ihs ihr => exact ihr.trans ihs
  | repeatTurn _ _ _ ihs ihr => exact ihr.trans ihs
  | commaMore _ _ _ _ ihs ihr => exact (ihr.trans (taken _)).trans ihs

theorem errors_le {s : Step ρ} {b b' : Builder} (h : Runs grammar s b b') :
    b.errors.length ≤ b'.errors.length := h.errors_suffix.length_le

theorem responds (hbody : ∀ rule ts, ts ≠ [] → (grammar rule).Responds ts) {s : Step ρ}
    {b b' : Builder} (h : Runs grammar s b b') (hs : s.Responds b.ahead) :
    b'.ahead.length < b.ahead.length ∨ b.errors.length < b'.errors.length := by
  have later {x y z : Builder} {t : Step ρ} (hyz : Runs grammar t y z)
      (h : y.ahead.length < x.ahead.length ∨ x.errors.length < y.errors.length) :
      z.ahead.length < x.ahead.length ∨ x.errors.length < z.errors.length :=
    h.imp (Nat.lt_of_le_of_lt hyz.ahead_suffix.length_le) (Nat.lt_of_lt_of_le · hyz.errors_le)
  induction h with
  | done => exact hs.elim
  | take b =>
    obtain ⟨t, ts, hb⟩ := List.exists_cons_of_ne_nil hs
    left
    rw [Builder.take_of_cons hb, hb]
    exact Nat.lt_succ_self _
  | report => exact .inr (Nat.lt_succ_self _)
  | look _ ih | wrap _ ih => exact ih hs
  | node _ ih | group _ ih => exact ih hs
  | call _ ih => exact ih (hbody _ _ hs)
  | @andThen s t b m b' hfirst hsecond ihs iht =>
    rcases hs with hs | hs
    · exact later hsecond (ihs hs)
    · rcases Nat.lt_or_ge m.ahead.length b.ahead.length with hlt | hge
      · exact later hsecond (.inl hlt)
      · have hahead : m.ahead = b.ahead := hfirst.ahead_suffix.eq_of_length_le hge
        have herrors := hfirst.errors_le
        have := iht (hahead ▸ hs)
        rw [hahead] at this
        omega
  | insistMoved _ _ ih => exact ih hs
  | insistStuck _ _ hrecovery ihs _ => exact later hrecovery (ihs hs)
  | repeatStop ht | commaStop ht => simp [ht] at hs
  | repeatTurn _ _ hrest ihs _ => exact later hrest (ihs hs.2)
  | commaLast _ _ _ ih => exact ih hs.2
  | commaMore _ _ _ hrest ihs _ => exact later hrest (later (.take _) (ihs hs.2))

theorem no_errors_left {s t : Step ρ} {b m b' : Builder} (hs : Runs grammar s b m)
    (ht : Runs grammar t m b') (h : b'.errors = b.errors) :
    m.errors = b.errors ∧ b'.errors = m.errors := by
  have hm : b.errors = m.errors := by
    refine hs.errors_suffix.eq_of_length_le ?_
    rw [← h]
    exact ht.errors_le
  exact ⟨hm.symm, h.trans hm⟩

theorem moves (hbody : ∀ rule ts, ts ≠ [] → (grammar rule).Responds ts) {rule : ρ}
    {c tried : Builder} (h : Runs grammar (.call rule) c tried)
    (herrors : tried.errors = c.errors) : ¬ (tried.taken = c.taken ∧ tried.atEnd = false) := by
  rintro ⟨htaken, hend⟩
  have hahead : tried.ahead = c.ahead := by
    have htogo := h.taken_eq_iff.1 htaken
    rcases h.moves_or_stays with hlt | ⟨_, hahead⟩
    · omega
    · exact hahead
  have hne : c.ahead ≠ [] := by
    rw [← hahead]
    simpa [Builder.atEnd] using hend
  rcases h.responds hbody hne with hlt | hlt
  · simp [hahead] at hlt
  · simp [herrors] at hlt

theorem alike (hbody : ∀ rule ts, ts ≠ [] → (grammar rule).Responds ts)
    (hrules : ∀ rule, (grammar rule).Complains) {s : Step ρ} {b b' c : Builder}
    (h : Runs grammar s b b') (hs : s.Complains) (herrors : b'.errors = b.errors)
    (hbc : b.Alike c) :
    ∃ c', Runs grammar s c c' ∧ c'.errors = c.errors ∧ b'.Alike c' := by
  induction h generalizing c with
  | done => exact ⟨c, .done c, rfl, hbc⟩
  | take => exact ⟨c.take, .take c, c.errors_take, hbc.take⟩
  | report => exact absurd (congrArg List.length herrors) (by simp [Builder.report])
  | look _ ih =>
    obtain ⟨c', hrun, hc', halike⟩ := ih (hs _) herrors hbc
    exact ⟨c', .look (hbc.ahead ▸ hrun), hc', halike⟩
  | andThen hfirst hsecond ihs iht =>
    obtain ⟨hm, hb'⟩ := hfirst.no_errors_left hsecond herrors
    obtain ⟨m', hrun, hm', halike⟩ := ihs hs.1 hm hbc
    obtain ⟨c', hrun', hc', halike'⟩ := iht hs.2 hb' halike
    exact ⟨c', .andThen hrun hrun', hc'.trans hm', halike'⟩
  | node _ ih =>
    obtain ⟨inner, hrun, hc', halike⟩ := ih hs herrors hbc.opened
    exact ⟨_, .node hrun, hc', hbc.closeNode _ halike⟩
  | group _ ih =>
    obtain ⟨inner, hrun, hc', halike⟩ := ih hs herrors hbc.opened
    exact ⟨_, .group hrun, hc', hbc.closeGroup halike⟩
  | wrap _ ih =>
    obtain ⟨c', hrun, hc', halike⟩ := ih hs herrors hbc
    exact ⟨_, .wrap hrun, hc', halike.wrap _⟩
  | insistMoved _ _ ih =>
    obtain ⟨⟨rule, rfl⟩, _⟩ := hs
    obtain ⟨tried, hrun, hc', halike⟩ := ih trivial herrors hbc
    exact ⟨tried, .insistMoved hrun (hrun.moves hbody hc'), hc', halike⟩
  | insistStuck htried _ hrecovery _ _ =>
    obtain ⟨-, message, rest, rfl⟩ := hs
    cases hrecovery with
    | andThen hreport hrest =>
      cases hreport
      have htried := htried.errors_le
      have hrest := hrest.errors_le
      rw [herrors] at hrest
      simp only [Builder.report, List.length_cons] at hrest
      omega
  | repeatStop ht => exact ⟨c, .repeatStop (hbc.ahead ▸ ht), rfl, hbc⟩
  | repeatTurn ht hturn hrest ihs ihr =>
    obtain ⟨hm, hb'⟩ := hturn.no_errors_left hrest herrors
    obtain ⟨m', hrun, hm', halike⟩ := ihs hs hm hbc
    obtain ⟨c', hrun', hc', halike'⟩ := ihr hs hb' halike
    exact ⟨c', .repeatTurn (hbc.ahead ▸ ht) hrun hrun', hc'.trans hm', halike'⟩
  | commaStop ht => exact ⟨c, .commaStop (hbc.ahead ▸ ht), rfl, hbc⟩
  | commaLast ht _ hcomma ih =>
    obtain ⟨c', hrun, hc', halike⟩ := ih hs herrors hbc
    exact ⟨c', .commaLast (hbc.ahead ▸ ht) hrun (halike.ahead ▸ hcomma), hc', halike⟩
  | @commaMore _ _ b m b' ht hturn hcomma hrest ihs ihr =>
    obtain ⟨hm, hb'⟩ := hturn.no_errors_left (.andThen (.take m) hrest) herrors
    obtain ⟨m', hrun, hm', halike⟩ := ihs hs hm hbc
    obtain ⟨c', hrun', hc', halike'⟩ := ihr hs (hb'.trans m.errors_take.symm) halike.take
    exact ⟨c', .commaMore (hbc.ahead ▸ ht) hrun (halike.ahead ▸ hcomma) hrun',
      (hc'.trans m'.errors_take).trans hm', halike'⟩
  | call _ ih =>
    obtain ⟨c', hrun, hc', halike⟩ := ih (hrules _) herrors hbc
    exact ⟨c', .call hrun, hc', halike⟩

end Runs

section Forms

variable {ts : List Token}

@[simp] theorem responds_ite (c : Prop) [Decidable c] (s t : Step ρ) :
    (if c then s else t).Responds ts ↔ (c → s.Responds ts) ∧ (¬ c → t.Responds ts) := by
  split <;> simp [*]

@[simp] theorem complains_ite (c : Prop) [Decidable c] (s t : Step ρ) :
    (if c then s else t).Complains ↔ (c → s.Complains) ∧ (¬ c → t.Complains) := by
  split <;> simp [*]

@[simp] theorem complains_given (test : List Token → Bool) (s : Step ρ) :
    (given test s).Complains ↔ ((∃ ts, test ts = true) → s.Complains) := by
  simp [given]

@[simp] theorem responds_takeMany (n : Nat) :
    (takeMany n : Step ρ).Responds ts ↔ n ≠ 0 ∧ ts ≠ [] := by
  induction n with
  | zero => simp [takeMany]
  | succ n ih => simp [takeMany, ih]

@[simp] theorem complains_takeMany (n : Nat) : (takeMany n : Step ρ).Complains := by
  induction n with
  | zero => trivial
  | succ n ih => exact ⟨trivial, ih⟩

end Forms

end Step

namespace Grammar

open Step

variable {ts : List Token}

@[simp] theorem responds_expect (kind : TokenKind) : (expect kind).Responds ts := by
  simpa [expect] using ne_nil_of_startsWith

@[simp] theorem responds_name : name.Responds ts := by
  simpa [name] using ne_nil_of_startsWith

@[simp] theorem responds_takeGroup : takeGroup.Responds ts ↔ ts ≠ [] := by
  simp [takeGroup, groupLength_ne_zero]

@[simp] theorem complains_eat (kind : TokenKind) : (eat kind).Complains := by
  simp [eat]

@[simp] theorem complains_expect (kind : TokenKind) : (expect kind).Complains := by
  simp [expect]

@[simp] theorem complains_takeGroup : takeGroup.Complains := by
  simp [takeGroup]

@[simp] theorem complains_name : name.Complains := by
  simp [name]

@[simp] theorem complains_qualifiers : qualifiers.Complains := by
  simp [qualifiers, inOrder]

theorem complains_insist (rule : Rule) (message : String) :
    (Step.insist (.call rule) (skipGroup message)).Complains :=
  ⟨⟨rule, rfl⟩, message, _, rfl⟩

theorem responds_declarationForm (owner : Option String) (h : ts ≠ []) :
    (declarationForm owner ts).Responds ts := by
  rw [declarationForm]
  cases typedName? ts with
  | none => simp [inOrder, h]
  | some named => simp [typedDeclaration, inOrder, h]

theorem responds_wordStatement (h : ts ≠ []) : (wordStatement ts).Responds ts := by
  rw [wordStatement]
  cases typedName? ts <;> simp [inOrder, h]

theorem responds_primary {s : Act} (h : primary? ts = some s) (hne : ts ≠ []) :
    s.Responds ts := by
  rcases primary?_cases h with rfl | rfl | rfl | ⟨form, _, rfl⟩ | rfl | rfl | ⟨_, rfl⟩
  · simpa [nameRef] using hne
  · simpa using hne
  · simpa using ⟨startsWith_string_of_primary h, hne⟩
  · exact hne
  · exact hne
  · simp [inOrder, hne]
  · simp [inOrder]

theorem responds_body (rule : Rule) (ts : List Token) (h : ts ≠ []) :
    (body rule).Responds ts := by
  cases rule with
  | item => simp [body, item, h]
  | importDirective => simp [body, importDirective, inOrder]
  | directive => simp [body, directive, inOrder]
  | metadata => simp [body, metadata, inOrder, h]
  | unsupportedItem => simp [body, unsupportedItem, inOrder, h]
  | classDecl => simp [body, classDecl, inOrder]
  | member owner => simp [body, member, h]
  | declaration owner => simp [body, declaration, inOrder, responds_declarationForm, h]
  | constructorRest => simp [body, constructorRest, inOrder, h]
  | functionRest => simp [body, functionRest, inOrder]
  | declarators => simp [body, declarators, inOrder]
  | typeRef => simp [body, typeRef, inOrder, h]
  | typeArgs => simp [body, typeArgs, inOrder]
  | paramList => simp [body, paramList, inOrder]
  | param => simp [body, param, inOrder, h]
  | functionBody inExpression => simp [body, functionBody, inOrder, h]
  | block => simp [body, block, inOrder]
  | statement => simp [body, statement, inOrder, responds_wordStatement, h]
  | localVar => simp [body, localVar, inOrder]
  | exprStmt => simp [body, exprStmt, inOrder]
  | expr => simp [body, expr, inOrder, h]
  | unary => simp [body, unary, inOrder, h]
  | operand =>
    simp only [body, operand, Responds]
    cases hp : primary? ts with
    | none => simp [missingExpr, inOrder]
    | some primary => exact .inl (responds_primary hp h)
  | collection form => simp [body, collection, inOrder]
  | newExpr => simp [body, newExpr, inOrder, h]
  | argList => simp [body, argList, inOrder]

theorem complains_declarationForm (owner : Option String) :
    (declarationForm owner ts).Complains := by
  rw [declarationForm]
  cases typedName? ts with
  | none => simp [inOrder]
  | some named => simp [typedDeclaration, inOrder]

theorem complains_wordStatement : (wordStatement ts).Complains := by
  rw [wordStatement]
  cases typedName? ts <;> simp [inOrder]

theorem complains_primary {s : Act} (h : primary? ts = some s) : s.Complains := by
  rcases primary?_cases h with rfl | rfl | rfl | ⟨form, _, rfl⟩ | rfl | rfl | ⟨_, rfl⟩
  all_goals simp [nameRef, inOrder]

theorem complains_suffix {s : Act} (h : suffix? ts = some s) : s.Complains := by
  obtain ⟨-, rfl | ⟨-, rfl⟩ | rfl | rfl | rfl⟩ := suffix?_cases h
  all_goals simp [nameRef, inOrder]

theorem complains_body (rule : Rule) : (body rule).Complains := by
  cases rule with
  | item => simp [body, item]
  | importDirective => simp [body, importDirective, inOrder]
  | directive => simp [body, directive, inOrder]
  | metadata => simp [body, metadata, inOrder]
  | unsupportedItem => simp [body, unsupportedItem, inOrder]
  | classDecl => simp [body, classDecl, classBody, inOrder, skipGroup]
  | member owner => simp [body, member]
  | declaration owner => simp [body, declaration, inOrder, complains_declarationForm]
  | constructorRest => simp [body, constructorRest, inOrder]
  | functionRest => simp [body, functionRest, inOrder]
  | declarators => simp [body, declarators, inOrder]
  | typeRef => simp [body, typeRef, inOrder]
  | typeArgs => simp [body, typeArgs, inOrder]
  | paramList => simp [body, paramList, parameterOrMark, inOrder, skipGroup]
  | param => simp [body, param, inOrder]
  | functionBody inExpression => simp [body, functionBody, bodyMark, inOrder]
  | block => simp [body, block, inOrder, skipGroup]
  | statement => simp [body, statement, inOrder, guardedBlock, complains_wordStatement]
  | localVar => simp [body, localVar, inOrder]
  | exprStmt => simp [body, exprStmt, inOrder]
  | expr => simp [body, expr, inOrder]
  | unary => simp [body, unary, inOrder]
  | operand =>
    intro ts
    dsimp only
    cases h : primary? ts with
    | none => simp [missingExpr, inOrder]
    | some primary =>
      refine ⟨complains_primary h, fun us => ?_⟩
      cases hs : suffix? us with
      | none => simp [hs]
      | some s => simpa [hs] using complains_suffix hs
  | collection form => simp [body, collection, element, inOrder, skipGroup]
  | newExpr => simp [body, newExpr, constructorCall, nameRef, inOrder]
  | argList => simp [body, argList, argument, inOrder, skipGroup]

theorem complains_file : file.Complains := complains_insist .item _

end Grammar

theorem Builder.alike_ofTokens {ts us : List Token} (h : significant ts = significant us) :
    (ofTokens ts).Alike (ofTokens us) :=
  ⟨(reads_ofTokens ts).aligned, (reads_ofTokens us).aligned, h.symm, rfl⟩

theorem parse_of_same_significant {text other : String}
    (hsame : significant (Token.scan text) = significant (Token.scan other))
    (herrors : (parse text).errors = []) :
    (parse other).errors = [] ∧ (parse other).tree.bare = (parse text).tree.bare := by
  have hclean : (Parse.readTokens (Token.scan text)).errors = [] := by
    simpa [parse, Parse.ofTokens_eq] using herrors
  obtain ⟨read, hrun, hread, halike⟩ := (Parse.runs_file (Token.scan text)).alike
    Grammar.responds_body Grammar.complains_body Grammar.complains_file hclean
    (Builder.alike_ofTokens hsame)
  obtain rfl := (Parse.runs_file (Token.scan other)).unique hrun
  refine ⟨?_, ?_⟩
  · have hclean' : (Parse.readTokens (Token.scan other)).errors = [] := hread
    simpa [parse, Parse.ofTokens_eq] using hclean'
  · have hbare := halike.attach.bare
    simpa [parse, Parse.ofTokens_eq, Parse.tree, Tree.bare, Builder.bare] using hbare

theorem parse_of_same_significant_respaced :
    significant (Token.scan "import 'a';\nfinal x = f(b.c), y = [1, -z];") =
      significant (Token.scan "import'a' ;final\nx=f( b . c ),// end\n y=[1,-z] ;\n") ∧
    (parse "import 'a';\nfinal x = f(b.c), y = [1, -z];").errors = [] ∧
    (parse "import'a' ;final\nx=f( b . c ),// end\n y=[1,-z] ;\n").errors = [] ∧
    (parse "import'a' ;final\nx=f( b . c ),// end\n y=[1,-z] ;\n").tree.bare =
      (parse "import 'a';\nfinal x = f(b.c), y = [1, -z];").tree.bare := by
  have hsame : significant (Token.scan "import 'a';\nfinal x = f(b.c), y = [1, -z];") =
      significant (Token.scan "import'a' ;final\nx=f( b . c ),// end\n y=[1,-z] ;\n") := by
    decide +kernel
  have hclean : (parse "import 'a';\nfinal x = f(b.c), y = [1, -z];").errors = [] := by
    decide +kernel
  exact ⟨hsame, hclean, parse_of_same_significant hsame hclean⟩

end CrossReference.Source
