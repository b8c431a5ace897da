import CrossReference.Proofs.Reading.Body
import CrossReference.Proofs.Reading.Shape

/-!
What stands between a callee and its arguments. However malformed a file is, a call is read as its
callee, then trivia, then a parenthesis or the angle of type arguments.
-/

namespace CrossReference.Source

open Lookahead

namespace Tree

mutual

def Everywhere (P : NodeKind → List Tree → Prop) : Tree → Prop
  | .leaf _ => True
  | .node kind children => P kind children ∧ EverywhereAll P children

def EverywhereAll (P : NodeKind → List Tree → Prop) : List Tree → Prop
  | [] => True
  | t :: ts => t.Everywhere P ∧ EverywhereAll P ts

end

theorem everywhereAll_iff {P : NodeKind → List Tree → Prop} {ts : List Tree} :
    EverywhereAll P ts ↔ ∀ t ∈ ts, t.Everywhere P := by
  induction ts with
  | nil => simp [EverywhereAll]
  | cons t ts ih => simp [EverywhereAll, ih]

def Begins (kind : TokenKind) (ts : List Tree) : Prop :=
  ∃ mark more, tokensAll ts = mark :: more ∧ mark.kind = kind

def BeginsTidily (ts : List Tree) : Prop :=
  ∀ t, (tokensAll ts).head? = some t → t.isTrivia = false

inductive OpensArguments : Tree → Prop
  | typed (inner : List Tree) : OpensArguments (.node .typeArgs inner)
  | plain {inner : List Tree} : Begins .lParen inner → OpensArguments (.node .argList inner)

def Marked : NodeKind → List Tree → Prop
  | .typeArgs, ts => Begins .lAngle ts
  | .callExpr, ts => BeginsTidily ts ∧ ∃ t ∈ ts, t.OpensArguments
  | _, _ => True

theorem marked_of_ne {kind : NodeKind} (htyped : kind ≠ .typeArgs) (hcall : kind ≠ .callExpr)
    (ts : List Tree) : Marked kind ts := by
  cases kind <;> trivial

end Tree

namespace Builder

def Tidy (b : Builder) : Prop := ∀ t, (b.seen ++ b.left).head? = some t → t.isTrivia = false

theorem Aligned.tidy_opened {b : Builder} (h : b.Aligned) : b.opened.Tidy := by
  intro t ht
  rw [seen_opened, left_opened, List.nil_append, left_attach] at ht
  cases ha : b.ahead with
  | nil =>
    rw [ha] at ht
    cases ht
  | cons u us =>
    rw [ha, weave_cons] at ht
    cases ht
    exact h.ahead_significant t (by simp [ha])

theorem Tidy.beginsTidily {b : Builder} (h : b.Tidy) : Tree.BeginsTidily b.built.reverse := by
  intro t ht
  exact h t (by rw [List.head?_append, seen, ht, Option.some_or])

end Builder

namespace Step

variable {ρ : Type} {grammar : ρ → Step ρ} {s : Step ρ} {b b' : Builder}

theorem Runs.tidy (h : Runs grammar s b b') (hb : b.Tidy) : b'.Tidy := by
  rw [Builder.Tidy, h.conserves]
  exact hb

end Step

namespace Grammar

open Step Source.Tree

section Brackets

variable {kind : TokenKind} {ts : List Token} {b z : Builder}

theorem begins_of_take {s : Act} (hts : startsWith kind b.ahead = true)
    (h : Runs body (.andThen .take s) b.opened z) : Begins kind z.built.reverse := by
  cases h with
  | andThen htake hrest =>
    cases htake
    obtain ⟨mark, rest, hahead, hbuilt⟩ := built_take_opened (ne_nil_of_startsWith hts)
    have hseen : b.opened.take.seen = [mark] := by rw [Builder.seen, hbuilt]; rfl
    obtain ⟨more, hmore⟩ := hrest.seen_prefix
    rw [hseen] at hmore
    rw [hahead] at hts
    exact ⟨mark, more, hmore.symm, by simpa [startsWith, kind?] using hts⟩

theorem built_call {rule : Rule} {kind : NodeKind} {s : Act} (hrule : body rule = .node kind s)
    (h : Runs body (.call rule) b z) :
    ∃ inner, z.built = .node kind inner :: b.attach.built := by
  cases h with
  | call h =>
    rw [hrule] at h
    exact built_node h

theorem opens_argList (hts : startsWith .lParen b.ahead = true)
    (h : Runs body (.call .argList) b z) : ∃ t ∈ z.built, t.OpensArguments := by
  cases h with
  | call h =>
    cases h with
    | node h =>
      refine ⟨_, List.mem_cons_self, .plain ?_⟩
      cases h with
      | andThen hopen hrest =>
        cases hopen with
        | look hopen =>
          simp only [Builder.ahead_opened, hts, if_true] at hopen
          exact begins_of_take hts (.andThen hopen hrest)

theorem opens_typed (h : Runs body (.andThen (.call .typeArgs) (.call .argList)) b z) :
    ∃ t ∈ z.built, t.OpensArguments := by
  cases h with
  | andThen htyped hargs =>
    obtain ⟨typed, htyped⟩ := built_call rfl htyped
    obtain ⟨args, hargs⟩ := built_call rfl hargs
    refine ⟨_, ?_, .typed typed⟩
    simp [hargs, Builder.attach, htyped]

def Applies (s : Act) (ts : List Token) : Prop :=
  ∀ b z : Builder, b.ahead = ts → Runs body s b z → ∃ t ∈ z.built, t.OpensArguments

theorem applies_argList (h : startsWith .lParen ts = true) : Applies (.call .argList) ts := by
  rintro b z rfl hrun
  exact opens_argList h hrun

theorem applies_typed : Applies (inOrder [.call .typeArgs, .call .argList]) ts :=
  fun _ _ _ hrun => opens_typed hrun

theorem applies_constructor (h : startsWithAny [.lParen, .lAngle] ts = true) :
    Applies (inOrder [given (startsWith .lAngle) (.call .typeArgs), .call .argList]) ts := by
  rintro b z rfl hrun
  cases hrun with
  | andThen htyped hargs =>
    cases htyped with
    | look htyped =>
      dsimp only at htyped
      split at htyped
      · exact opens_typed (.andThen htyped hargs)
      · next hangle =>
        cases htyped
        have hparen : startsWith .lParen b.ahead = true := by
          simpa [startsWithAny_cons, startsWithAny_empty, hangle] using h
        exact opens_argList hparen hargs

end Brackets

/-- Whether a step with `ts` ahead opens arguments as it should. Inside a node or a group no trivia
come first. -/
@[simp] def Marks : (inside : Bool) → Act → List Token → Prop
  | _, .done, _ => True
  | _, .take, _ => True
  | _, .report _, _ => True
  | inside, .look choose, ts => Marks inside (choose ts) ts
  | inside, .andThen first second, ts => Marks inside first ts ∧ ∀ us, Marks inside second us
  | _, .node kind inner, ts =>
    Marks true inner ts ∧ kind ≠ .callExpr ∧
      (kind = .typeArgs → startsWith .lAngle ts = true ∧ ∃ rest, inner = .andThen .take rest)
  | _, .group inner, ts => Marks true inner ts
  | inside, .wrap kind inner, ts =>
    inside = true ∧ Marks true inner ts ∧ kind ≠ .typeArgs ∧ (kind = .callExpr → Applies inner ts)
  | inside, .insist inner recovery, ts => Marks inside inner ts ∧ ∀ us, Marks inside recovery us
  | inside, .repeatWhile test inner, _ => ∀ us, test us = true → Marks inside inner us
  | inside, .commaList test inner, _ => ∀ us, test us = true → Marks inside inner us
  | _, .call rule, ts => rule = .typeArgs → startsWith .lAngle ts = true

section Runs

variable {inside : Bool} {b inner : Builder}

theorem everywhere_attach {P : NodeKind → List Tree → Prop} (h : ∀ t ∈ b.built, t.Everywhere P) :
    ∀ t ∈ b.attach.built, t.Everywhere P := by
  intro t ht
  rcases List.mem_append.1 ht with ht | ht
  · obtain ⟨token, _, rfl⟩ := List.mem_map.1 (List.mem_reverse.1 ht)
    trivial
  · exact h t ht

theorem everywhere_take {P : NodeKind → List Tree → Prop} (h : ∀ t ∈ b.built, t.Everywhere P) :
    ∀ t ∈ b.take.built, t.Everywhere P := by
  cases hb : b.ahead with
  | nil =>
    rw [Builder.take_of_nil hb]
    exact everywhere_attach h
  | cons token rest =>
    rw [Builder.take_of_cons hb]
    exact List.forall_mem_cons.2 ⟨trivial, everywhere_attach h⟩

theorem everywhere_node {P : NodeKind → List Tree → Prop} {kind : NodeKind}
    (hkind : P kind inner.built.reverse) (h : ∀ t ∈ inner.built, t.Everywhere P) :
    (Tree.node kind inner.built.reverse).Everywhere P :=
  ⟨hkind, everywhereAll_iff.2 fun t ht => h t (List.mem_reverse.1 ht)⟩

theorem marked_closeNode {kind : NodeKind} {s : Act} (hrun : Runs body s b.opened inner)
    (hs : Marks inside (.node kind s) b.ahead) : Marked kind inner.built.reverse := by
  obtain ⟨-, hcall, htyped⟩ := hs
  by_cases hkind : kind = .typeArgs
  · obtain ⟨hts, rest, rfl⟩ := htyped hkind
    subst hkind
    exact begins_of_take hts hrun
  · exact marked_of_ne hkind hcall _

theorem marked_wrap {kind : NodeKind} {s : Act} {b' : Builder} (hrun : Runs body s b b')
    (hb : b.Tidy) (hs : Marks inside (.wrap kind s) b.ahead) : Marked kind b'.built.reverse := by
  obtain ⟨-, -, htyped, hcall⟩ := hs
  by_cases hkind : kind = .callExpr
  · obtain ⟨t, ht, hopens⟩ := hcall hkind b b' rfl hrun
    subst hkind
    exact ⟨(hrun.tidy hb).beginsTidily, t, List.mem_reverse.2 ht, hopens⟩
  · exact marked_of_ne htyped hkind _

theorem marked_of_runs
    (hbody : ∀ rule ts, (rule = .typeArgs → startsWith .lAngle ts = true) →
      Marks false (body rule) ts)
    {s : Act} {b' : Builder} (h : Runs body s b b') (hb : b.Aligned)
    (htidy : inside = true → b.Tidy) (hs : Marks inside s b.ahead)
    (hbuilt : ∀ t ∈ b.built, t.Everywhere Marked) : ∀ t ∈ b'.built, t.Everywhere Marked := by
  -- Rules are checked for every place they are called from, so a call starts outside of all nodes.
  induction h generalizing inside with
  | done | report | repeatStop | commaStop => exact hbuilt
  | take => exact everywhere_take hbuilt
  | look _ ih => exact ih hb htidy hs hbuilt
  | andThen hfirst _ ihs iht =>
    exact iht (hfirst.aligned hb) (fun h => hfirst.tidy (htidy h)) (hs.2 _)
      (ihs hb htidy hs.1 hbuilt)
  | @node kind s b inner hrun ih =>
    have hinner := ih (hb.attach.same rfl rfl rfl) (fun _ => hb.tidy_opened) hs.1
      (by simp [Builder.opened])
    exact List.forall_mem_cons.2
      ⟨everywhere_node (marked_closeNode hrun hs) hinner, everywhere_attach hbuilt⟩
  | @group s b inner hrun ih =>
    have hinner := ih (hb.attach.same rfl rfl rfl) (fun _ => hb.tidy_opened) hs
      (by simp [Builder.opened])
    intro t ht
    exact (List.mem_append.1 ht).elim (hinner t) (everywhere_attach hbuilt t)
  | @wrap kind s b b' hrun ih =>
    have hinner := ih hb (fun _ => htidy hs.1) hs.2.1 hbuilt
    exact List.forall_mem_cons.2
      ⟨everywhere_node (marked_wrap hrun (htidy hs.1) hs) hinner, by simp⟩
  | insistMoved _ _ ih => exact ih hb htidy hs.1 hbuilt
  | insistStuck hturn _ _ ihs ihr =>
    exact ihr (hturn.aligned hb) (fun h => hturn.tidy (htidy h)) (hs.2 _)
      (ihs hb htidy hs.1 hbuilt)
  | repeatTurn ht hturn _ ihs ihr =>
    exact ihr (hturn.aligned hb) (fun h => hturn.tidy (htidy h)) hs (ihs hb htidy (hs _ ht) hbuilt)
  | commaLast ht _ _ ih => exact ih hb htidy (hs _ ht) hbuilt
  | @commaMore _ _ _ m _ ht hturn _ _ ihs ihr =>
    have hcomma : Runs body .take m m.take := .take m
    exact ihr (hcomma.aligned (hturn.aligned hb)) (fun h => hcomma.tidy (hturn.tidy (htidy h))) hs
      (everywhere_take (ihs hb htidy (hs _ ht) hbuilt))
  | call _ ih => exact ih hb (fun h => absurd h Bool.false_ne_true) (hbody _ _ hs) hbuilt

end Runs

section Rules

variable {inside : Bool} {ts : List Token}

@[simp] theorem marks_ite (c : Prop) [Decidable c] (s t : Act) :
    Marks inside (if c then s else t) ts ↔
      (c → Marks inside s ts) ∧ (¬ c → Marks inside t ts) := by
  split <;> simp [*]

@[simp] theorem marks_given (test : List Token → Bool) (s : Act) :
    Marks inside (given test s) ts ↔ (test ts = true → Marks inside s ts) := by
  simp [given]

@[simp] theorem marks_takeMany (n : Nat) : Marks inside (takeMany n) ts := by
  induction n generalizing ts with
  | zero => trivial
  | succ n ih => exact ⟨trivial, fun _ => ih⟩

@[simp] theorem marks_eat (kind : TokenKind) : Marks inside (eat kind) ts := by
  simp [eat]

@[simp] theorem marks_expect (kind : TokenKind) : Marks inside (expect kind) ts := by
  simp [expect]

@[simp] theorem marks_takeGroup : Marks inside takeGroup ts := by
  simp [takeGroup]

@[simp] theorem marks_skipGroup (message : String) : Marks inside (skipGroup message) ts := by
  simp [skipGroup, inOrder]

@[simp] theorem marks_name : Marks inside name ts := by
  simp [name]

@[simp] theorem marks_qualifiers : Marks inside qualifiers ts := by
  simp [qualifiers, inOrder]

@[simp] theorem marks_nameRef : Marks inside nameRef ts := by
  simp [nameRef]

theorem marks_member : Marks true (.wrap .memberExpr (inOrder [.take, nameRef])) ts := by
  simp [inOrder]

theorem marks_primary {s : Act} (h : primary? ts = some s) : Marks inside s ts := by
  rcases primary?_cases h with rfl | rfl | rfl | ⟨form, hf, rfl⟩ | rfl | rfl | ⟨hne, rfl⟩
  all_goals simp [inOrder]

theorem startsWith_lAngle_of_suffix
    (h : suffix? ts = some (.wrap .callExpr (inOrder [.call .typeArgs, .call .argList]))) :
    startsWith .lAngle ts = true := by
  unfold suffix? at h
  split at h
  case h_4 hk => exact startsWith_of_kind? hk
  case h_1 | h_2 | h_7 => split at h <;> cases h
  all_goals cases h

theorem marks_suffix {s : Act} (h : suffix? ts = some s) : Marks true s ts := by
  obtain ⟨-, rfl | ⟨hparen, rfl⟩ | rfl | rfl | rfl⟩ := suffix?_cases h
  · exact marks_member
  · simp [applies_argList hparen]
  · have hangle := startsWith_lAngle_of_suffix h
    have happlies : Applies (inOrder [.call .typeArgs, .call .argList]) ts := applies_typed
    exact ⟨rfl, ⟨fun _ => hangle, by simp [inOrder]⟩, by simp, fun _ => happlies⟩
  · simp [inOrder]
  · simp

theorem marks_declarationForm (owner : Option String) :
    Marks true (declarationForm owner ts) ts := by
  rw [declarationForm]
  rcases functionKind_cases owner with hf | hf <;> rcases variablesKind_cases owner with hv | hv
  all_goals
    cases typedName? ts with
    | none => simp [inOrder, hf, hv]
    | some named => simp [typedDeclaration, inOrder, hf, hv]

theorem marks_wordStatement : Marks inside (wordStatement ts) ts := by
  rw [wordStatement]
  cases typedName? ts <;> simp [inOrder]

theorem marks_constructorCall : Marks inside constructorCall ts := by
  refine ⟨marks_nameRef, fun us => ⟨fun vs _ => marks_member, fun vs => marks_ite _ _ _ |>.2 ?_⟩⟩
  refine ⟨fun hmark => ⟨rfl, ?_, by simp, fun _ => applies_constructor hmark⟩, fun _ => trivial⟩
  simp [inOrder]

theorem marks_body (rule : Rule) (h : rule = .typeArgs → startsWith .lAngle ts = true) :
    Marks false (body rule) ts := by
  cases rule with
  | item => simp [body, item]
  | importDirective => simp [body, importDirective, inOrder]
  | directive => simp [body, directive, inOrder]
  | metadata => simp [body, metadata, inOrder]
  | unsupportedItem => simp [body, unsupportedItem, inOrder]
  | classDecl => simp [body, classDecl, classBody, inOrder]
  | member owner => simp [body, member]
  | declaration owner => simp [body, declaration, inOrder, marks_declarationForm]
  | constructorRest => simp [body, constructorRest, inOrder]
  | functionRest => simp [body, functionRest, inOrder]
  | declarators => simp [body, declarators, inOrder]
  | typeRef => simp [body, typeRef, inOrder]
  | typeArgs => simp [body, typeArgs, inOrder, h rfl]
  | paramList => simp [body, paramList, parameterOrMark, inOrder]
  | param => simp [body, param, inOrder]
  | functionBody inExpression =>
    cases inExpression <;> simp [body, functionBody, bodyMark, inOrder]
  | block => simp [body, block, inOrder]
  | statement => simp [body, statement, inOrder, guardedBlock, marks_wordStatement]
  | localVar => simp [body, localVar, inOrder]
  | exprStmt => simp [body, exprStmt, inOrder]
  | expr => simp [body, expr, inOrder]
  | unary => simp [body, unary, inOrder]
  | operand =>
    simp only [body, operand, Marks]
    cases h : primary? ts with
    | none => simp [missingExpr, inOrder]
    | some primary =>
      refine ⟨marks_primary h, fun us vs ht => ?_⟩
      obtain ⟨s, hs⟩ := Option.isSome_iff_exists.1 ht
      simpa [hs] using marks_suffix hs
  | collection form =>
    cases form <;> simp [body, collection, element, inOrder, CollectionForm.nodeKind]
  | newExpr => simp [body, newExpr, inOrder, marks_constructorCall]
  | argList => simp [body, argList, argument, inOrder]

theorem marks_file : Marks false file ts := by
  simp [file]

end Rules

end Grammar

namespace Parse

theorem marked_tree (tokens : List Token) : (ofTokens tokens).tree.Everywhere Tree.Marked := by
  have hread : ∀ t ∈ (readTokens tokens).built, t.Everywhere Tree.Marked :=
    Grammar.marked_of_runs (fun _ _ => Grammar.marks_body _) (runs_file tokens)
      (Builder.reads_ofTokens tokens).aligned (fun h => absurd h Bool.false_ne_true)
      Grammar.marks_file (by simp [Builder.ofTokens])
  refine ⟨trivial, Tree.everywhereAll_iff.2 fun t ht => ?_⟩
  exact Grammar.everywhere_attach hread t (List.mem_reverse.1 ht)

end Parse

namespace Tree

theorem exists_of_parts {ts : List Tree} {kind : NodeKind} {ps : List Part}
    (h : parts ts = .node kind :: ps) :
    ∃ (gap : List Token) (inner rest : List Tree),
      ts = gap.map .leaf ++ .node kind inner :: rest ∧ (∀ g ∈ gap, g.isTrivia) ∧
        parts rest = ps := by
  induction ts with
  | nil => cases h
  | cons t ts ih =>
    cases t with
    | node k inner =>
      obtain ⟨hk, hps⟩ := List.cons.inj h
      cases hk
      exact ⟨[], inner, ts, rfl, by simp, hps⟩
    | leaf token =>
      cases htoken : token.isTrivia with
      | false => simp [parts, part?, htoken] at h
      | true =>
        have hrest : parts ts = .node kind :: ps := by simpa [parts, part?, htoken] using h
        obtain ⟨gap, inner, rest, rfl, hgap, hps⟩ := ih hrest
        exact ⟨token :: gap, inner, rest, rfl, List.forall_mem_cons.2 ⟨htoken, hgap⟩, hps⟩

theorem part_of_mem {kind : NodeKind} {inner ts : List Tree} (h : .node kind inner ∈ ts) :
    .node kind ∈ parts ts :=
  List.mem_filterMap.2 ⟨_, h, rfl⟩

theorem eq_opener {e kind opener : NodeKind} {callee inner rest ts : List Tree} {gap : List Token}
    (he : e.isExpr = true) (hrest : parts rest = [])
    (h : .node kind ts ∈ .node e callee :: (gap.map .leaf ++ .node opener inner :: rest))
    (hkind : kind.isExpr = false) : kind = opener ∧ ts = inner := by
  rcases List.mem_cons.1 h with h | h
  · cases h
    rw [he] at hkind
    cases hkind
  · rcases List.mem_append.1 h with h | h
    · obtain ⟨_, _, h⟩ := List.mem_map.1 h
      cases h
    · rcases List.mem_cons.1 h with h | h
      · exact Tree.node.inj h
      · have hpart := part_of_mem h
        rw [hrest] at hpart
        cases hpart

inductive Applied (callee : List Tree) : List Tree → Prop
  | intro {kind opener : NodeKind} {gap : List Token} {mark : TokenKind} {inner rest : List Tree} :
      kind.isExpr = true → (∀ g ∈ gap, g.isTrivia) → mark ∈ [.lParen, .lAngle] →
      Begins mark inner →
      Applied callee (.node kind callee :: (gap.map .leaf ++ .node opener inner :: rest))

theorem exists_callee {ts : List Tree} (hfits : Grammar.counted .callExpr (parts ts))
    (hts : BeginsTidily ts) :
    ∃ (e opener : NodeKind) (callee inner rest : List Tree) (gap : List Token), e.isExpr = true ∧
      ts = .node e callee :: (gap.map .leaf ++ .node opener inner :: rest) ∧
      (∀ g ∈ gap, g.isTrivia) ∧
      (opener = .argList ∧ parts rest = [] ∨ opener = .typeArgs) := by
  obtain ⟨e, he, hparts⟩ := hfits
  obtain ⟨opener, others, hparts, hopener⟩ : ∃ opener others,
      parts ts = .node e :: .node opener :: others ∧
        (opener = .argList ∧ others = [] ∨ opener = .typeArgs) := by
    rcases hparts with hparts | hparts
    · exact ⟨_, _, hparts, .inl ⟨rfl, rfl⟩⟩
    · exact ⟨_, _, hparts, .inr rfl⟩
  obtain ⟨before, callee, behind, rfl, hbefore, hbehind⟩ := exists_of_parts hparts
  obtain ⟨gap, inner, rest, rfl, hgap, rfl⟩ := exists_of_parts hbehind
  obtain rfl : before = [] := by
    cases before with
    | nil => rfl
    | cons g before =>
      have hg : g.isTrivia = false := hts g (by simp [tokensAll, tokens])
      rw [hbefore g List.mem_cons_self] at hg
      cases hg
  exact ⟨e, opener, callee, inner, rest, gap, he, rfl, hgap, hopener⟩

theorem exists_applied {ts : List Tree} (hfits : Grammar.counted .callExpr (parts ts))
    (hmarked : (node .callExpr ts).Everywhere Marked) : ∃ callee, Applied callee ts := by
  obtain ⟨⟨htidy, t, ht, hopens⟩, hbelow⟩ := hmarked
  obtain ⟨e, opener, callee, inner, rest, gap, he, rfl, hgap, ⟨rfl, hrest⟩ | rfl⟩ :=
    exists_callee hfits htidy
  · -- The node that opens the arguments is the argument list itself.
    have hinner : Begins .lParen inner := by
      cases hopens with
      | typed typed => exact absurd (eq_opener he hrest ht rfl).1 (by decide)
      | plain hbegins => exact (eq_opener he hrest ht rfl).2 ▸ hbegins
    exact ⟨callee, .intro he hgap (by simp) hinner⟩
  · have hinner := (everywhereAll_iff.1 hbelow (.node .typeArgs inner) (by simp)).1
    exact ⟨callee, .intro he hgap (by simp) hinner⟩

end Tree

end CrossReference.Source
