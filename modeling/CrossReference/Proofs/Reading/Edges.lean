import CrossReference.Proofs.Reading.Application
import CrossReference.Proofs.Reading.Layout

/-!
Nodes keep trivia outside. A node opens behind the trivia in front of it, so none begins with
trivia. It ends with trivia only where a token was asked for at the end of the file, or where
nothing was taken at all, and in both cases something is reported.
-/

namespace CrossReference.Source

open Lookahead

def Tree.EndsTidily (ts : List Tree) : Prop :=
  ∃ t, (tokensAll ts).getLast? = some t ∧ t.isTrivia = false

namespace Builder

def Firm (b : Builder) : Prop := Tree.EndsTidily b.built.reverse

variable {b inner : Builder}

theorem firm_take (h : b.Aligned) (hne : b.ahead ≠ []) : b.take.Firm := by
  obtain ⟨t, ts, ht⟩ := List.exists_cons_of_ne_nil hne
  refine ⟨t, ?_, h.ahead_significant t (by simp [ht])⟩
  rw [take_of_cons ht]
  simp [Tree.tokensAll, Tree.tokens]

theorem ahead_take (b : Builder) : b.take.ahead = b.ahead.tail := by
  cases h : b.ahead with
  | nil => rw [take_of_nil h, ahead_attach, h]; rfl
  | cons t ts => rw [take_of_cons h]; rfl

theorem Firm.of_seen (h : inner.Firm) (hseen : inner.seen <:+ b.seen) : b.Firm := by
  obtain ⟨t, ht, htrivia⟩ := h
  obtain ⟨before, hbefore⟩ := hseen
  refine ⟨t, ?_, htrivia⟩
  change b.seen.getLast? = some t
  rw [← hbefore, List.getLast?_append, seen, ht, Option.some_or]

end Builder

namespace Step

open Grammar (everywhere_attach everywhere_take everywhere_node)

variable {ρ : Type} {grammar : ρ → Step ρ}

theorem begins_of_runs {closed : ρ → Prop}
    (hclosed : ∀ rule, closed rule → (grammar rule).Seals closed) {s : Step ρ} {b b' : Builder}
    (h : Runs grammar s b b') (hb : b.Aligned) (hs : b.Tidy ∨ s.Seals closed)
    (hbuilt : ∀ t ∈ b.built, t.Everywhere fun _ ts => Tree.BeginsTidily ts) :
    ∀ t ∈ b'.built, t.Everywhere fun _ ts => Tree.BeginsTidily ts := by
  induction h with
  | done | report | repeatStop | commaStop => exact hbuilt
  | take => exact everywhere_take hbuilt
  | look _ ih => exact ih hb (hs.imp_right fun h => h _) hbuilt
  | andThen hfirst _ ihs iht =>
    exact iht (hfirst.aligned hb) (hs.imp hfirst.tidy And.right)
      (ihs hb (hs.imp_right And.left) hbuilt)
  | node hrun ih =>
    have hinner := ih (hb.attach.same rfl rfl rfl) (.inl hb.tidy_opened) (by simp [Builder.opened])
    have htidy := (hrun.tidy hb.tidy_opened).beginsTidily
    exact List.forall_mem_cons.2 ⟨everywhere_node htidy hinner, everywhere_attach hbuilt⟩
  | group _ ih =>
    have hinner := ih (hb.attach.same rfl rfl rfl) (.inl hb.tidy_opened) (by simp [Builder.opened])
    exact List.forall_mem_append.2 ⟨hinner, everywhere_attach hbuilt⟩
  | wrap hrun ih =>
    have hopen := hs.resolve_right id
    have htidy := (hrun.tidy hopen).beginsTidily
    exact List.forall_mem_cons.2
      ⟨everywhere_node htidy (ih hb (.inl hopen) hbuilt), by simp⟩
  | insistMoved _ _ ih => exact ih hb (hs.imp_right And.left) hbuilt
  | insistStuck hturn _ _ ihs ihr =>
    exact ihr (hturn.aligned hb) (hs.imp hturn.tidy And.right)
      (ihs hb (hs.imp_right And.left) hbuilt)
  | repeatTurn _ hturn _ ihs ihr =>
    exact ihr (hturn.aligned hb) (hs.imp_left hturn.tidy) (ihs hb hs hbuilt)
  | commaLast _ _ _ ih => exact ih hb hs hbuilt
  | @commaMore _ _ _ m _ _ hturn _ _ ihs ihr =>
    have hcomma : Runs grammar .take m m.take := .take m
    exact ihr (hturn.aligned hb).take (hs.imp_left fun h => hcomma.tidy (hturn.tidy h))
      (everywhere_take (ihs hb hs hbuilt))
  | call _ ih => exact ih hb (hs.imp_right (hclosed _)) hbuilt

/-- What has to hold before a step with `ts` ahead so that `post` holds after it and every node it
makes ends with a significant token, unless it reports something. `firm` says that the open list
ends with a significant token. A rule is called where it is `ready` and leaves such a list. -/
@[simp] def Settles (ready : ρ → List Token → Prop) :
    Step ρ → (Bool → List Token → Prop) → Bool → List Token → Prop
  | .done, post, firm, ts => post firm ts
  | .take, post, _, ts => post (!ts.isEmpty) ts.tail
  | .report _, _, _, _ => True
  | .look choose, post, firm, ts => (choose ts).Settles ready post firm ts
  | .andThen first second, post, firm, ts =>
    first.Settles ready (second.Settles ready post) firm ts
  | .node _ body, post, _, ts =>
    body.Settles ready (fun firm us => firm = true ∧ post true us) false ts
  | .group body, post, _, ts => body.Settles ready post false ts
  | .wrap _ body, post, firm, ts =>
    body.Settles ready (fun firm us => firm = true ∧ post true us) firm ts
  | .insist body recovery, post, firm, ts =>
    body.Settles ready (fun firm us => post firm us ∧ recovery.Settles ready post firm us) firm ts
  | .repeatWhile test body, post, firm, ts =>
    (test ts = false → post firm ts) ∧
    (test ts = true →
      (∀ us, test us = true → body.Settles ready (fun firm _ => firm = true) false us) ∧
      ∀ us, test us = false → post true us)
  | .commaList test body, post, firm, ts =>
    (test ts = false → post firm ts) ∧
    (test ts = true →
      (∀ us, test us = true → body.Settles ready (fun firm _ => firm = true) false us) ∧
      ∀ us, post true us)
  | .call rule, post, _, ts => ready rule ts ∧ ∀ us, post true us

theorem settled_of_runs {ready : ρ → List Token → Prop}
    (hbody : ∀ rule ts, ready rule ts →
      (grammar rule).Settles ready (fun firm _ => firm = true) false ts)
    {s : Step ρ} {b b' : Builder} (h : Runs grammar s b b') (hb : b.Aligned)
    (herrors : b'.errors = b.errors) {post : Bool → List Token → Prop} {firm : Bool}
    (hfirm : firm = true → b.Firm) (hs : s.Settles ready post firm b.ahead)
    (hbuilt : ∀ t ∈ b.built, t.Everywhere fun _ ts => Tree.EndsTidily ts) :
    (∀ t ∈ b'.built, t.Everywhere fun _ ts => Tree.EndsTidily ts) ∧
      ∃ firm', (firm' = true → b'.Firm) ∧ post firm' b'.ahead := by
  induction h generalizing post firm with
  | done => exact ⟨hbuilt, firm, hfirm, hs⟩
  | take b =>
    refine ⟨everywhere_take hbuilt, !b.ahead.isEmpty, fun hne => ?_, b.ahead_take ▸ hs⟩
    exact Builder.firm_take hb (by simpa using hne)
  | report => exact absurd (congrArg List.length herrors) (by simp [Builder.report])
  | look _ ih => exact ih hb herrors hfirm hs hbuilt
  | andThen hfirst hsecond ihs iht =>
    obtain ⟨hm, hb'⟩ := hfirst.no_errors_left hsecond herrors
    obtain ⟨hbuiltm, firm', hfirm', hpost⟩ := ihs hb hm hfirm hs hbuilt
    exact iht (hfirst.aligned hb) hb' hfirm' hpost hbuiltm
  | node _ ih =>
    obtain ⟨hinner, firm', hfirm', rfl, hpost⟩ := ih (hb.attach.same rfl rfl rfl) herrors
      (fun h => absurd h Bool.false_ne_true) hs (by simp [Builder.opened])
    exact ⟨List.forall_mem_cons.2
      ⟨everywhere_node (hfirm' rfl) hinner, everywhere_attach hbuilt⟩,
      true, fun _ => (hfirm' rfl).of_seen ⟨_, (Builder.seen_closeNode ..).symm⟩, hpost⟩
  | group _ ih =>
    obtain ⟨hinner, firm', hfirm', hpost⟩ := ih (hb.attach.same rfl rfl rfl) herrors
      (fun h => absurd h Bool.false_ne_true) hs (by simp [Builder.opened])
    exact ⟨List.forall_mem_append.2 ⟨hinner, everywhere_attach hbuilt⟩,
      firm', fun h => (hfirm' h).of_seen ⟨_, (Builder.seen_closeGroup ..).symm⟩, hpost⟩
  | wrap _ ih =>
    obtain ⟨hinner, firm', hfirm', rfl, hpost⟩ := ih hb herrors hfirm hs hbuilt
    exact ⟨List.forall_mem_cons.2 ⟨everywhere_node (hfirm' rfl) hinner, by simp⟩,
      true, fun _ => (hfirm' rfl).of_seen ⟨[], (Builder.seen_wrap ..).symm⟩, hpost⟩
  | insistMoved _ _ ih =>
    obtain ⟨hbuilt', firm', hfirm', hpost, _⟩ := ih hb herrors hfirm hs hbuilt
    exact ⟨hbuilt', firm', hfirm', hpost⟩
  | insistStuck htried _ hrecovery ihs ihr =>
    obtain ⟨hm, hb'⟩ := htried.no_errors_left hrecovery herrors
    obtain ⟨hbuilt', firm', hfirm', _, hrecover⟩ := ihs hb hm hfirm hs hbuilt
    exact ihr (htried.aligned hb) hb' hfirm' hrecover hbuilt'
  | repeatStop ht => exact ⟨hbuilt, firm, hfirm, hs.1 ht⟩
  | repeatTurn ht hturn hrest ihs ihr =>
    obtain ⟨hm, hb'⟩ := hturn.no_errors_left hrest herrors
    obtain ⟨hbody', hpost⟩ := hs.2 ht
    obtain ⟨hbuilt', firm', hfirm', rfl⟩ := ihs hb hm (fun h => absurd h Bool.false_ne_true)
      (hbody' _ ht) hbuilt
    exact ihr (hturn.aligned hb) hb' hfirm' ⟨hpost _, fun _ => ⟨hbody', hpost⟩⟩ hbuilt'
  | commaStop ht => exact ⟨hbuilt, firm, hfirm, hs.1 ht⟩
  | commaLast ht _ _ ih =>
    obtain ⟨hbody', hpost⟩ := hs.2 ht
    obtain ⟨hbuilt', firm', hfirm', rfl⟩ := ih hb herrors (fun h => absurd h Bool.false_ne_true)
      (hbody' _ ht) hbuilt
    exact ⟨hbuilt', true, hfirm', hpost _⟩
  | @commaMore _ _ _ m _ ht hturn hcomma hrest ihs ihr =>
    obtain ⟨hm, hb'⟩ := hturn.no_errors_left (.andThen (.take m) hrest) herrors
    obtain ⟨hbody', hpost⟩ := hs.2 ht
    obtain ⟨hbuilt', -⟩ := ihs hb hm (fun h => absurd h Bool.false_ne_true) (hbody' _ ht) hbuilt
    have hfirm' := Builder.firm_take (hturn.aligned hb) (ne_nil_of_startsWith hcomma)
    exact ihr (hturn.aligned hb).take (hb'.trans m.errors_take.symm) (fun _ => hfirm')
      ⟨fun _ => hpost _, fun _ => ⟨hbody', hpost⟩⟩ (everywhere_take hbuilt')
  | call _ ih =>
    obtain ⟨hbuilt', firm', hfirm', rfl⟩ := ih hb herrors (fun h => absurd h Bool.false_ne_true)
      (hbody _ _ hs.1) hbuilt
    exact ⟨hbuilt', true, hfirm', hs.2 _⟩

section Forms

variable {ready : ρ → List Token → Prop} {post : Bool → List Token → Prop} {firm : Bool}
  {ts : List Token}

@[simp] theorem settles_ite (c : Prop) [Decidable c] (s t : Step ρ) :
    (if c then s else t).Settles ready post firm ts ↔
      (c → s.Settles ready post firm ts) ∧ (¬ c → t.Settles ready post firm ts) := by
  split <;> simp [*]

@[simp] theorem settles_given (test : List Token → Bool) (s : Step ρ) :
    (given test s).Settles ready post firm ts ↔
      (test ts = true → s.Settles ready post firm ts) ∧ (test ts = false → post firm ts) := by
  simp [given]

theorem settles_takeMany {n : Nat} (h : n ≤ ts.length) :
    (takeMany n : Step ρ).Settles ready post firm ts ↔ post (firm || n ≠ 0) (ts.drop n) := by
  induction n generalizing ts firm with
  | zero => simp [takeMany]
  | succ n ih =>
    cases ts with
    | nil => simp at h
    | cons t ts => simp [takeMany, ih (Nat.le_of_succ_le_succ h)]

end Forms

end Step

namespace Lookahead

theorem groupLength_le (depth : Nat) (ts : List Token) : groupLength depth ts ≤ ts.length := by
  induction ts generalizing depth with
  | nil => exact Nat.le_refl _
  | cons t ts ih =>
    rw [groupLength]
    split
    · exact Nat.succ_le_succ (Nat.zero_le _)
    · exact Nat.succ_le_succ (ih _)

@[simp] theorem typedName?_nil : typedName? [] = none := rfl

@[simp] theorem startsWithWord_nil (word : String) : startsWithWord word [] = false := rfl

@[simp] theorem startsWithAnyWord_nil (words : List String) : startsWithAnyWord words [] = false :=
  rfl

attribute [grind =] startsWith_nil startsWithAny_nil startsWithWord_nil startsWithAnyWord_nil
  typedName?_nil

end Lookahead

namespace Grammar

open Step

variable {post : Bool → List Token → Prop} {firm : Bool} {ts : List Token}

/-- Most rules report what they miss at the end of a file. These ones do not. -/
@[simp] def ready : Rule → List Token → Prop
  | .metadata, ts | .typeRef, ts | .unsupportedItem, ts => ts ≠ []
  | .constructorRest, ts => ts ≠ [] ∧ (startsWith .dot ts.tail = true → ts.tail.tail ≠ [])
  | _, _ => True

@[simp] theorem settles_eat (kind : TokenKind) :
    (eat kind).Settles ready post firm ts ↔
      (startsWith kind ts = true → post true ts.tail) ∧
        (startsWith kind ts = false → post firm ts) := by
  cases ts <;> simp [eat]

@[simp] theorem settles_expect (kind : TokenKind) :
    (expect kind).Settles ready post firm ts ↔ (startsWith kind ts = true → post true ts.tail) := by
  cases ts <;> simp [expect]

@[simp] theorem settles_takeGroup :
    takeGroup.Settles ready post firm ts ↔
      (ts = [] → post firm []) ∧ (ts ≠ [] → post true (ts.drop (groupLength 0 ts))) := by
  simp only [takeGroup, Settles]
  rw [settles_takeMany (groupLength_le 0 ts)]
  cases ts with
  | nil => simp [groupLength]
  | cons t ts =>
    have hne : groupLength 0 (t :: ts) ≠ 0 := groupLength_ne_zero.2 (by simp)
    simp [hne]

@[simp] theorem settles_skipGroup (message : String) :
    (skipGroup message).Settles ready post firm ts := by
  simp [skipGroup, inOrder]

@[simp] theorem settles_name :
    name.Settles ready post firm ts ↔ (startsWith .ident ts = true → post true ts.tail) := by
  cases ts <;> simp [name]

@[simp] theorem settles_nameRef :
    nameRef.Settles ready post firm ts ↔ ts ≠ [] ∧ post true ts.tail := by
  cases ts <;> simp [nameRef]

theorem tail_ne_nil_of_kindAt? {kind : TokenKind} (h : kindAt? 1 ts = some kind) :
    ts.tail ≠ [] := by
  rcases ts with _ | ⟨t, _ | ⟨u, us⟩⟩
  · cases h
  · cases h
  · simp

@[grind →] theorem tail_ne_nil_of_followedBy {first second : TokenKind}
    (h : followedBy first second ts = true) : ts.tail ≠ [] :=
  tail_ne_nil_of_kindAt? (beq_iff_eq.1 (Bool.and_eq_true_iff.1 h).2)

@[simp] theorem settles_qualifiers :
    qualifiers.Settles ready post firm ts ↔
      (followedBy .dot .ident ts = false → post firm ts) ∧
        (followedBy .dot .ident ts = true →
          ∀ us, followedBy .dot .ident us = false → post true us) := by
  have hturn (us : List Token) (h : followedBy .dot .ident us = true) : us.tail ≠ [] :=
    tail_ne_nil_of_followedBy h
  simp +contextual [qualifiers, inOrder, hturn]

@[grind →] theorem named_of_atConstructor {owner : Option String}
    (h : atConstructor owner ts = true) :
    ts ≠ [] ∧ (startsWith .dot ts.tail = true → ts.tail.tail ≠ []) := by
  rcases ts with _ | ⟨t, _ | ⟨u, _ | ⟨v, vs⟩⟩⟩ <;>
    simp_all [atConstructor, word?, kindAt?, startsWith, kind?]

theorem ne_nil_of_typedName? {named : List Token} (h : typedName? ts = some named) : ts ≠ [] := by
  rintro rfl
  cases h

theorem settles_declarationForm (owner : Option String) :
    (declarationForm owner ts).Settles ready (fun firm _ => firm = true) firm ts := by
  rw [declarationForm]
  cases h : typedName? ts with
  | none =>
    simp [inOrder]
    grind
  | some named =>
    simp [typedDeclaration, inOrder, ne_nil_of_typedName? h]
    grind

theorem settles_wordStatement :
    (wordStatement ts).Settles ready (fun firm _ => firm = true) firm ts := by
  rw [wordStatement]
  cases h : typedName? ts with
  | none => simp
  | some named => simp [inOrder, ne_nil_of_typedName? h]

theorem settles_primary {s : Act} (h : primary? ts = some s) (hpost : ∀ us, post true us) :
    s.Settles ready post firm ts := by
  have hne : ts ≠ [] := by
    rintro rfl
    cases h
  rcases primary?_cases h with rfl | rfl | rfl | ⟨form, hf, rfl⟩ | rfl | rfl | ⟨_, rfl⟩
  · simp [hne, hpost]
  · simp [hne, hpost]
  · simp [startsWith_string_of_primary h, hpost]
    grind
  · simp [hpost]
  · simp [hpost]
  · simp [inOrder, hpost]
  · simp [inOrder, hpost]

theorem settles_suffix {s : Act} (h : suffix? ts = some s) :
    s.Settles ready (fun firm _ => firm = true) firm ts := by
  obtain ⟨hne, rfl | ⟨hparen, rfl⟩ | rfl | rfl | rfl⟩ := suffix?_cases h
  · simp [inOrder, tail_ne_nil_of_kindAt? (kindAt?_of_suffix h)]
  all_goals simp [inOrder, hne]

theorem settles_body (rule : Rule) (h : ready rule ts) :
    (body rule).Settles ready (fun firm _ => firm = true) false ts := by
  -- What is left of each rule are the places where it takes a token: its tests say there is one.
  cases rule with
  | item =>
    simp [body, item]
    grind
  | importDirective =>
    simp [body, importDirective, inOrder, before]
    grind
  | directive => simp +contextual [body, directive, inOrder, before]
  | metadata => simp_all [body, metadata, inOrder]
  | unsupportedItem => simp_all [body, unsupportedItem, inOrder, before]
  | classDecl =>
    simp [body, classDecl, classBody, inOrder, before]
    grind
  | member owner =>
    simp [body, member]
    grind
  | declaration owner =>
    simp [body, declaration, inOrder, settles_declarationForm, atModifier]
    grind
  | constructorRest => simp_all +contextual [body, constructorRest, inOrder, before]
  | functionRest => simp [body, functionRest, inOrder]
  | declarators => simp [body, declarators, inOrder]
  | typeRef =>
    simp_all [body, typeRef, inOrder]
    grind
  | typeArgs =>
    simp [body, typeArgs, inOrder]
    grind
  | paramList => simp +contextual [body, paramList, parameterOrMark, inOrder, before]
  | param =>
    simp [body, param, inOrder]
    grind
  | functionBody inExpression =>
    cases inExpression <;> simp [body, functionBody, bodyMark, inOrder]
    grind
  | block => simp [body, block, inOrder, before]
  | statement =>
    simp [body, statement, inOrder, guardedBlock, settles_wordStatement]
    grind
  | localVar =>
    simp [body, localVar, inOrder]
    grind
  | exprStmt => simp [body, exprStmt, inOrder]
  | expr =>
    simp [body, expr, inOrder]
    grind
  | unary => simp [body, unary, inOrder]
  | operand =>
    simp only [body, operand, Settles]
    cases hp : primary? ts with
    | none => simp [missingExpr, inOrder]
    | some primary =>
      have hturn (us : List Token) (ht : (suffix? us).isSome = true) :
          ((suffix? us).getD .done).Settles ready (fun firm _ => firm = true) false us := by
        obtain ⟨s, hs⟩ := Option.isSome_iff_exists.1 ht
        simpa [hs] using settles_suffix hs
      exact settles_primary (s := primary) hp fun us =>
        ⟨fun _ => rfl, fun _ => ⟨hturn, fun _ _ => rfl⟩⟩
  | collection form => simp [body, collection, element, inOrder, before]
  | newExpr =>
    simp [body, newExpr, constructorCall, inOrder]
    grind
  | argList => simp [body, argList, argument, inOrder, before]

theorem settles_file : file.Settles ready (fun _ _ => True) firm ts := by
  simp [file]

end Grammar

namespace Parse

variable {tokens : List Token}

theorem begins_tidily {t : Tree} (ht : t ∈ (ofTokens tokens).items) :
    t.Everywhere fun _ ts => Tree.BeginsTidily ts := by
  have hread := Step.begins_of_runs Grammar.seals_body (runs_file tokens)
    (Builder.reads_ofTokens tokens).aligned (.inr Grammar.seals_file) (by simp [Builder.ofTokens])
  exact Grammar.everywhere_attach hread t (List.mem_reverse.1 ht)

theorem ends_tidily (herrors : (ofTokens tokens).errors = []) {t : Tree}
    (ht : t ∈ (ofTokens tokens).items) : t.Everywhere fun _ ts => Tree.EndsTidily ts := by
  have hclean : (readTokens tokens).errors = [] := by simpa [ofTokens_eq] using herrors
  obtain ⟨hread, -⟩ := Step.settled_of_runs (fun _ _ => Grammar.settles_body _) (runs_file tokens)
    (Builder.reads_ofTokens tokens).aligned hclean (fun h => absurd h Bool.false_ne_true)
    Grammar.settles_file (by simp [Builder.ofTokens])
  exact Grammar.everywhere_attach hread t (List.mem_reverse.1 ht)

end Parse

end CrossReference.Source
