import CrossReference.Proofs.Reading.Lossless

namespace CrossReference.Source

open Lookahead

namespace Tree

def IsWord (t : Tree) : Prop :=
  ∀ inner, t = .node .name inner → ∃ word, inner = [.leaf word] ∧ word.kind = .ident

def Spelled (kind : NodeKind) (children : List Tree) : Prop :=
  (kind = .nameRef →
    ∃ word, children = [.leaf word] ∧ word.kind ∈ [.ident, .thisKw, .superKw]) ∧
  (kind ≠ .constructorDecl → ∀ t ∈ children, t.IsWord)

mutual

def Regular : Tree → Prop
  | .leaf _ => True
  | .node kind children => Spelled kind children ∧ RegularAll children

def RegularAll : List Tree → Prop
  | [] => True
  | t :: ts => t.Regular ∧ RegularAll ts

end

theorem regularAll_iff {ts : List Tree} : RegularAll ts ↔ ∀ t ∈ ts, t.Regular := by
  induction ts with
  | nil => simp [RegularAll]
  | cons t ts ih => simp [RegularAll, ih]

/-- Between the parts of a constructor its name stands in the open list; elsewhere the open list has
names of one word only. -/
def Neat (loose : Bool) (t : Tree) : Prop := t.Regular ∧ (loose = false → t.IsWord)

theorem neat_leaf (loose : Bool) (t : Token) : (leaf t).Neat loose := by
  refine ⟨trivial, ?_⟩
  rintro - inner h
  cases h

theorem Neat.loosen {loose : Bool} {t : Tree} (h : t.Neat false) : t.Neat loose :=
  ⟨h.1, fun _ => h.2 rfl⟩

theorem isWord_node {kind : NodeKind} {children : List Tree} (h : kind ≠ .name) :
    (node kind children).IsWord := by
  rintro inner heq
  cases heq
  exact absurd rfl h

theorem isWord_name {word : Token} (h : word.kind = .ident) :
    (node .name [.leaf word]).IsWord := by
  rintro inner heq
  cases heq
  exact ⟨word, rfl, h⟩

end Tree

namespace Step

variable {ρ : Type} {grammar : ρ → Step ρ}

def Leaves : Step ρ → List Token → List Token → Prop
  | .done, ts, us | .report _, ts, us => us = ts
  | .take, ts, us => us = ts.tail
  | .look choose, ts, us => (choose ts).Leaves ts us
  | .andThen first second, ts, us => ∃ ms, first.Leaves ts ms ∧ second.Leaves ms us
  | _, _, _ => True

theorem Runs.leaves {s : Step ρ} {b b' : Builder} (h : Runs grammar s b b') :
    s.Leaves b.ahead b'.ahead := by
  induction h with
  | done | report => exact rfl
  | take b =>
    cases hb : b.ahead with
    | nil =>
      rw [Builder.take_of_nil hb]
      exact hb
    | cons t ts =>
      rw [Builder.take_of_cons hb]
      exact rfl
  | look _ ih => exact ih
  | andThen _ _ ihs iht => exact ⟨_, ihs, iht⟩
  | _ => trivial

end Step

namespace Grammar

open Step

def Callable (loose : Bool) : Rule → Prop
  | .constructorRest => loose = true
  | .paramList | .functionBody _ | .block => True
  | _ => loose = false

/-- Whether a step with `ts` ahead makes names as they should be, in an open list that is `loose` or
not. -/
@[simp] def Spells : (loose : Bool) → Act → List Token → Prop
  | _, .done, _ => True
  | _, .take, _ => True
  | _, .report _, _ => True
  | loose, .look choose, ts => Spells loose (choose ts) ts
  | loose, .andThen first second, ts =>
    Spells loose first ts ∧ ∀ us, first.Leaves ts us → Spells loose second us
  | loose, .node kind inner, ts =>
    Spells false inner ts ∧
    (kind = .nameRef → inner = .take ∧ startsWithAny [.ident, .thisKw, .superKw] ts = true) ∧
    (kind = .name → loose = false → inner = .take ∧ startsWith .ident ts = true)
  | _, .group inner, ts => Spells false inner ts
  | loose, .wrap kind inner, ts =>
    loose = false ∧ kind ≠ .nameRef ∧ kind ≠ .name ∧
      (if kind = .constructorDecl then Spells true inner ts else Spells false inner ts)
  | loose, .insist inner recovery, ts => Spells loose inner ts ∧ ∀ us, Spells loose recovery us
  | loose, .repeatWhile test inner, _ => ∀ us, test us = true → Spells loose inner us
  | loose, .commaList test inner, _ => ∀ us, test us = true → Spells loose inner us
  | loose, .call rule, _ => Callable loose rule

section Runs

variable {loose : Bool} {b inner : Builder}

theorem neat_attach (h : ∀ t ∈ b.built, t.Neat loose) : ∀ t ∈ b.attach.built, t.Neat loose := by
  intro t ht
  rcases List.mem_append.1 ht with ht | ht
  · obtain ⟨token, _, rfl⟩ := List.mem_map.1 (List.mem_reverse.1 ht)
    exact Tree.neat_leaf loose token
  · exact h t ht

theorem neat_take (h : ∀ t ∈ b.built, t.Neat loose) : ∀ t ∈ b.take.built, t.Neat loose := by
  cases hb : b.ahead with
  | nil =>
    rw [Builder.take_of_nil hb]
    exact neat_attach h
  | cons token rest =>
    rw [Builder.take_of_cons hb]
    exact List.forall_mem_cons.2 ⟨Tree.neat_leaf loose token, neat_attach h⟩

theorem built_take_opened (hb : b.ahead ≠ []) :
    ∃ token rest, b.ahead = token :: rest ∧ b.opened.take.built = [.leaf token] := by
  obtain ⟨token, rest, hahead⟩ := List.exists_cons_of_ne_nil hb
  refine ⟨token, rest, hahead, ?_⟩
  have hopened : b.opened.ahead = token :: rest := hahead
  rw [Builder.take_of_cons hopened]
  rfl

theorem neat_closeNode {kind : NodeKind} {s : Act} (hrun : Runs body s b.opened inner)
    (hs : Spells loose (.node kind s) b.ahead) (hb : ∀ t ∈ b.built, t.Neat loose)
    (hinner : ∀ t ∈ inner.built, t.Neat false) :
    ∀ t ∈ (b.closeNode kind inner).built, t.Neat loose := by
  obtain ⟨-, href, hname⟩ := hs
  have hwords : ∀ t ∈ inner.built.reverse, t.IsWord := by
    intro t ht
    exact (hinner t (List.mem_reverse.1 ht)).2 rfl
  refine List.forall_mem_cons.2 ⟨⟨⟨⟨?_, fun _ => hwords⟩, ?_⟩, ?_⟩, neat_attach hb⟩
  · intro hkind
    obtain ⟨rfl, hstart⟩ := href hkind
    obtain rfl := hrun.unique (.take _)
    have hne : b.ahead ≠ [] := by
      intro hnil
      simp [hnil] at hstart
    obtain ⟨token, rest, hahead, hbuilt⟩ := built_take_opened hne
    rw [hahead] at hstart
    exact ⟨token, by rw [hbuilt]; rfl, by simpa [startsWithAny] using hstart⟩
  · refine Tree.regularAll_iff.2 fun t ht => ?_
    exact (hinner t (List.mem_reverse.1 ht)).1
  · intro hloose
    by_cases hkind : kind = .name
    · subst hkind
      obtain ⟨rfl, hstart⟩ := hname rfl hloose
      obtain rfl := hrun.unique (.take _)
      obtain ⟨token, rest, hahead, hbuilt⟩ := built_take_opened (ne_nil_of_startsWith hstart)
      rw [hahead] at hstart
      rw [hbuilt]
      exact Tree.isWord_name (by simpa [startsWith, kind?] using hstart)
    · exact Tree.isWord_node hkind

theorem neat_wrap {kind : NodeKind} (href : kind ≠ .nameRef) (hname : kind ≠ .name)
    (hb : ∀ t ∈ b.built, t.Neat loose) (hloose : kind ≠ .constructorDecl → loose = false) :
    ∀ t ∈ (b.wrap kind).built, t.Neat false := by
  have hregular : Tree.RegularAll b.built.reverse :=
    Tree.regularAll_iff.2 fun t ht => (hb t (List.mem_reverse.1 ht)).1
  have hspelled : Tree.Spelled kind b.built.reverse := by
    refine ⟨fun hkind => absurd hkind href, fun hkind t ht => ?_⟩
    exact (hb t (List.mem_reverse.1 ht)).2 (hloose hkind)
  intro t ht
  obtain rfl := List.mem_singleton.1 ht
  exact ⟨⟨hspelled, hregular⟩, fun _ => Tree.isWord_node hname⟩

theorem neat_of_runs
    (hbody : ∀ loose rule ts, Callable loose rule → Spells loose (body rule) ts)
    {s : Act} {b' : Builder} (h : Runs body s b b') (hs : Spells loose s b.ahead)
    (hb : ∀ t ∈ b.built, t.Neat loose) : ∀ t ∈ b'.built, t.Neat loose := by
  induction h generalizing loose with
  | done | report | repeatStop | commaStop => exact hb
  | take => exact neat_take hb
  | look _ ih => exact ih hs hb
  | andThen hfirst _ ihs iht => exact iht (hs.2 _ hfirst.leaves) (ihs hs.1 hb)
  | node hrun ih =>
    have hinner := ih hs.1 (by simp [Builder.opened])
    exact neat_closeNode hrun hs hb hinner
  | group _ ih =>
    have hinner := ih hs (by simp [Builder.opened])
    intro t ht
    rcases List.mem_append.1 ht with ht | ht
    · exact (hinner t ht).loosen
    · exact neat_attach hb t ht
  | @wrap kind s b b' _ ih =>
    obtain ⟨rfl, href, hname, hs⟩ := hs
    split at hs
    · next hkind =>
      exact neat_wrap href hname (ih hs fun t ht => (hb t ht).loosen) (absurd hkind)
    · exact neat_wrap href hname (ih hs hb) fun _ => rfl
  | insistMoved _ _ ih => exact ih hs.1 hb
  | insistStuck _ _ _ ihs ihr => exact ihr (hs.2 _) (ihs hs.1 hb)
  | repeatTurn ht _ _ ihs ihr => exact ihr hs (ihs (hs _ ht) hb)
  | commaLast ht _ _ ih => exact ih (hs _ ht) hb
  | commaMore ht _ _ _ ihs ihr => exact ihr hs (neat_take (ihs (hs _ ht) hb))
  | call _ ih => exact ih (hbody _ _ _ hs) hb

end Runs

section Rules

variable {loose : Bool} {ts : List Token}

@[simp] theorem spells_ite (c : Prop) [Decidable c] (s t : Act) :
    Spells loose (if c then s else t) ts ↔
      (c → Spells loose s ts) ∧ (¬ c → Spells loose t ts) := by
  split <;> simp [*]

@[simp] theorem spells_given (test : List Token → Bool) (s : Act) :
    Spells loose (given test s) ts ↔ (test ts = true → Spells loose s ts) := by
  simp [given]

@[simp] theorem spells_takeMany (n : Nat) : Spells loose (takeMany n) ts := by
  induction n generalizing ts with
  | zero => trivial
  | succ n ih => exact ⟨trivial, fun _ _ => ih⟩

@[simp] theorem spells_eat (kind : TokenKind) : Spells loose (eat kind) ts := by
  simp [eat]

@[simp] theorem spells_expect (kind : TokenKind) : Spells loose (expect kind) ts := by
  simp [expect]

@[simp] theorem spells_takeGroup : Spells loose takeGroup ts := by
  simp [takeGroup]

@[simp] theorem spells_skipGroup (message : String) : Spells loose (skipGroup message) ts := by
  simp [skipGroup, inOrder]

@[simp] theorem spells_name : Spells loose name ts := by
  simp +contextual [name]

@[simp] theorem spells_qualifiers : Spells loose qualifiers ts := by
  simp [qualifiers, inOrder]

@[simp] theorem spells_nameRef :
    Spells loose nameRef ts ↔ startsWithAny [.ident, .thisKw, .superKw] ts = true := by
  simp [nameRef]

theorem startsWithAny_word {ts : List Token} (h : startsWith .ident ts = true) :
    startsWithAny [.ident, .thisKw, .superKw] ts = true := by
  simp [startsWithAny_cons, h]

theorem startsWith_tail {ts : List Token} {kind : TokenKind} (h : kindAt? 1 ts = some kind) :
    startsWith kind ts.tail = true := by
  cases ts with
  | nil => simp [kindAt?] at h
  | cons t ts => cases ts <;> simp_all [kindAt?, startsWith, kind?]

theorem spells_member (h : kindAt? 1 ts = some .ident) :
    Spells false (.wrap .memberExpr (inOrder [.take, nameRef])) ts := by
  simpa [inOrder, Leaves] using startsWithAny_word (startsWith_tail h)

theorem startsWithAny_of_primary (h : primary? ts = some nameRef) :
    startsWithAny [.ident, .thisKw, .superKw] ts = true := by
  unfold primary? at h
  split at h
  case h_1 hk | h_2 hk | h_3 hk => exact startsWithAny_of_kind? hk (by simp)
  case h_12 =>
    obtain ⟨form, _, heq⟩ := Option.map_eq_some_iff.1 h
    cases heq
  case h_13 => split at h <;> cases h
  case h_15 => split at h <;> cases h
  all_goals cases h

theorem spells_primary {s : Act} (h : primary? ts = some s) : Spells false s ts := by
  rcases primary?_cases h with rfl | rfl | rfl | ⟨form, hf, rfl⟩ | rfl | rfl | ⟨hne, rfl⟩
  · exact spells_nameRef.2 (startsWithAny_of_primary h)
  · simp
  · simp
  · simp [Callable]
  · simp [Callable]
  · simp [inOrder, Callable]
  · simp [inOrder, Callable]

theorem kindAt?_of_suffix (h : suffix? ts = some (.wrap .memberExpr (inOrder [.take, nameRef]))) :
    kindAt? 1 ts = some .ident := by
  unfold suffix? at h
  split at h
  case h_1 | h_2 =>
    split at h
    · next hk => exact beq_iff_eq.1 hk
    · cases h
  case h_4 | h_7 => split at h <;> cases h
  all_goals cases h

theorem spells_suffix {s : Act} (h : suffix? ts = some s) : Spells false s ts := by
  obtain ⟨-, rfl | ⟨-, rfl⟩ | rfl | rfl | rfl⟩ := suffix?_cases h
  · exact spells_member (kindAt?_of_suffix h)
  · simp [Callable]
  · simp [inOrder, Callable]
  · simp [inOrder, Callable]
  · simp

theorem functionKind_cases (owner : Option String) :
    functionKind owner = .methodDecl ∨ functionKind owner = .functionDecl := by
  cases owner <;> simp [functionKind]

theorem variablesKind_cases (owner : Option String) :
    variablesKind owner = .fieldDecl ∨ variablesKind owner = .topLevelVar := by
  cases owner <;> simp [variablesKind]

theorem spells_declarationForm (owner : Option String) :
    Spells false (declarationForm owner ts) ts := by
  rw [declarationForm]
  rcases functionKind_cases owner with hf | hf <;> rcases variablesKind_cases owner with hv | hv
  all_goals
    cases typedName? ts with
    | none => simp [inOrder, Callable, hf, hv]
    | some named => simp [typedDeclaration, inOrder, Callable, hf, hv]

theorem spells_wordStatement : Spells false (wordStatement ts) ts := by
  rw [wordStatement]
  cases typedName? ts <;> simp [inOrder, Callable]

theorem spells_constructorCall (h : startsWith .ident ts = true) :
    Spells false constructorCall ts := by
  refine ⟨spells_nameRef.2 (startsWithAny_word h), fun us _ => ⟨fun vs hv => ?_, ?_⟩⟩
  · simp only [followedBy, Bool.and_eq_true, beq_iff_eq] at hv
    exact spells_member hv.2
  · simp [inOrder, Callable]

theorem spells_strict (rule : Rule) (h : Callable false rule) : Spells false (body rule) ts := by
  cases rule with
  | item => simp [body, item, Callable]
  | importDirective => simp [body, importDirective, inOrder]
  | directive => simp [body, directive, inOrder]
  | metadata => simp [body, metadata, inOrder, Callable]
  | unsupportedItem => simp [body, unsupportedItem, inOrder]
  | classDecl => simp [body, classDecl, classBody, inOrder, Callable]
  | member owner => simp [body, member, Callable]
  | declaration owner => simp [body, declaration, inOrder, spells_declarationForm]
  | constructorRest => exact absurd h Bool.false_ne_true
  | functionRest => simp [body, functionRest, inOrder, Callable]
  | declarators => simp [body, declarators, inOrder, Callable]
  | typeRef => simp [body, typeRef, inOrder, Callable]
  | typeArgs => simp [body, typeArgs, inOrder, Callable]
  | paramList => simp [body, paramList, parameterOrMark, inOrder, Callable]
  | param => simp [body, param, inOrder, Callable]
  | functionBody inExpression =>
    cases inExpression <;> simp [body, functionBody, bodyMark, inOrder, Callable]
  | block => simp [body, block, inOrder, Callable]
  | statement => simp [body, statement, inOrder, Callable, guardedBlock, spells_wordStatement]
  | localVar => simp [body, localVar, inOrder, Callable]
  | exprStmt => simp [body, exprStmt, inOrder, Callable]
  | expr => simp [body, expr, inOrder, Callable]
  | unary => simp [body, unary, inOrder, Callable]
  | operand =>
    simp only [body, operand, Spells]
    cases h : primary? ts with
    | none => simp [missingExpr, inOrder]
    | some primary =>
      refine ⟨spells_primary h, fun us _ vs ht => ?_⟩
      obtain ⟨s, hs⟩ := Option.isSome_iff_exists.1 ht
      simpa [hs] using spells_suffix hs
  | collection form =>
    cases form <;> simp [body, collection, element, inOrder, Callable, CollectionForm.nodeKind]
  | newExpr => simp +contextual [body, newExpr, inOrder, spells_constructorCall]
  | argList => simp [body, argList, argument, inOrder, Callable]

theorem spells_loose (rule : Rule) (h : Callable true rule) : Spells true (body rule) ts := by
  cases rule with
  | constructorRest => simp [body, constructorRest, inOrder, Callable]
  | paramList => simp [body, paramList, parameterOrMark, inOrder, Callable]
  | functionBody inExpression =>
    cases inExpression <;> simp [body, functionBody, bodyMark, inOrder, Callable]
  | block => simp [body, block, inOrder, Callable]
  | _ => exact absurd h Bool.false_ne_true.symm

theorem spells_body (loose : Bool) (rule : Rule) (ts : List Token) (h : Callable loose rule) :
    Spells loose (body rule) ts := by
  cases loose with
  | false => exact spells_strict rule h
  | true => exact spells_loose rule h

theorem spells_file : Spells false file ts := by
  simp [file, Callable]

end Rules

end Grammar

namespace Parse

theorem regular_tree (tokens : List Token) : (ofTokens tokens).tree.Regular := by
  have hread : ∀ t ∈ (readTokens tokens).built, t.Neat false :=
    Grammar.neat_of_runs Grammar.spells_body (runs_file tokens) Grammar.spells_file
      (by simp [Builder.ofTokens])
  have hitems : ∀ t ∈ (ofTokens tokens).items, t.Neat false := by
    intro t ht
    exact Grammar.neat_attach hread t (List.mem_reverse.1 ht)
  refine ⟨⟨fun h => ?_, fun _ t ht => (hitems t ht).2 rfl⟩, ?_⟩
  · cases h
  · exact Tree.regularAll_iff.2 fun t ht => (hitems t ht).1

end Parse

end CrossReference.Source
