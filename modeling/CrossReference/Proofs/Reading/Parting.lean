import CrossReference.Proofs.Reading.Debt

namespace CrossReference.Source

open Lookahead

namespace Step

open Grammar

variable {ts us : List Token} {owed : Option (Rule × String)}

/-- Whether two readings that part in a step part for good, but for the report `owed` on a rule that
one of them may owe when the step is over. -/
@[simp] def Resolves (owed : Option (Rule × String)) : Act → Prop
  | .done | .take | .report _ | .call _ => True
  | .look choose => ∀ ts, (choose ts).Resolves owed
  | .andThen first second =>
    second.Resolves owed ∧ (first.Resolves none ∨
      ∃ rule message, first.Resolves (some (rule, message)) ∧ second.Departs message)
  | .node _ body | .group body | .wrap _ body => body.Resolves owed
  | .insist body recovery =>
    recovery.Resolves none ∧
      ∃ rule message, owed = some (rule, message) ∧ body = .call rule ∧ recovery = skipGroup message
  | .repeatWhile test body =>
    body.Resolves none ∨ ∃ rule message, body = .insist (.call rule) (skipGroup message) ∧
      (∀ ts, patient rule ts = true) ∧ (owed = some (rule, message) ∨ ∀ ts ≠ [], test ts = true)
  | .commaList _ body => body.Resolves owed

section Forms

@[simp] theorem resolves_ite (c : Prop) [Decidable c] (s t : Act) :
    (if c then s else t).Resolves owed ↔ (c → s.Resolves owed) ∧ (¬ c → t.Resolves owed) := by
  split <;> simp [*]

@[simp] theorem resolves_given (test : List Token → Bool) (s : Act) :
    (given test s).Resolves owed ↔ ((∃ ts, test ts = true) → s.Resolves owed) := by
  simp [given]

@[simp] theorem resolves_takeMany (n : Nat) : (takeMany n : Act).Resolves owed := by
  induction n with
  | zero => trivial
  | succ n ih => exact ⟨ih, .inl trivial⟩

end Forms

end Step

namespace Grammar

open Step

variable {ts : List Token} {owed : Option (Rule × String)}

@[simp] theorem resolves_eat (kind : TokenKind) : (eat kind).Resolves owed := by
  simp [eat]

@[simp] theorem resolves_expect (kind : TokenKind) : (expect kind).Resolves owed := by
  simp [expect]

@[simp] theorem resolves_takeGroup : takeGroup.Resolves owed := by
  simp [takeGroup]

@[simp] theorem resolves_skipGroup (message : String) : (skipGroup message).Resolves owed := by
  simp [skipGroup, inOrder]

@[simp] theorem resolves_name : name.Resolves owed := by
  simp [name]

@[simp] theorem resolves_qualifiers : qualifiers.Resolves owed := by
  simp [qualifiers, inOrder]

theorem departs_expect {kind : TokenKind} {message : String}
    (h : "expected " ++ kind.label ≠ message) : (expect kind).Departs message := by
  intro ts
  simp only
  split
  · exact .inl rfl
  · exact .inr ⟨_, h, rfl⟩

theorem resolves_declarationForm (owner : Option String) :
    (declarationForm owner ts).Resolves owed := by
  rw [declarationForm]
  cases typedName? ts with
  | none => simp [inOrder]
  | some named => simp [typedDeclaration, inOrder]

theorem resolves_wordStatement : (wordStatement ts).Resolves owed := by
  rw [wordStatement]
  cases typedName? ts <;> simp [inOrder]

theorem resolves_primary {s : Act} (h : primary? ts = some s) : s.Resolves owed := by
  rcases primary?_cases h with rfl | rfl | rfl | ⟨form, _, rfl⟩ | rfl | rfl | ⟨_, rfl⟩
  all_goals simp [nameRef, inOrder]

theorem resolves_suffix {s : Act} (h : suffix? ts = some s) : s.Resolves owed := by
  obtain ⟨-, rfl | ⟨-, rfl⟩ | rfl | rfl | rfl⟩ := suffix?_cases h
  all_goals simp [nameRef, inOrder]

theorem resolves_element : element.Resolves (some (.expr, "expected an element")) := by
  simp [element, inOrder]

theorem resolves_argument : argument.Resolves (some (.expr, "expected an argument")) := by
  simp [argument, inOrder]

theorem resolves_insisting {rule : Rule} (h : ∀ ts, patient rule ts = true) (message : String)
    (test : List Token → Bool) :
    (.repeatWhile test (.insist (.call rule) (skipGroup message)) : Act).Resolves
      (some (rule, message)) :=
  .inr ⟨_, _, rfl, h, .inl rfl⟩

theorem resolves_closed {first : Act} {rule : Rule} {message : String} {kind : TokenKind}
    (h : first.Resolves (some (rule, message))) (hkind : "expected " ++ kind.label ≠ message) :
    (.andThen first (expect kind) : Act).Resolves none :=
  ⟨resolves_expect kind, .inr ⟨rule, message, h, departs_expect hkind⟩⟩

theorem resolves_classBody (owner : Option String) : (classBody owner).Resolves none :=
  ⟨resolves_closed (resolves_insisting (fun _ => rfl) _ _) (by decide), .inl trivial⟩

theorem resolves_body (rule : Rule) : (body rule).Resolves none := by
  cases rule with
  | item => simp [body, item]
  | importDirective => simp [body, importDirective, inOrder]
  | directive => simp [body, directive, inOrder]
  | metadata => simp [body, metadata, inOrder]
  | unsupportedItem => simp [body, unsupportedItem, inOrder]
  | classDecl => simp [body, classDecl, inOrder, resolves_classBody]
  | member owner => simp [body, member]
  | declaration owner => simp [body, declaration, inOrder, resolves_declarationForm]
  | constructorRest => simp [body, constructorRest, inOrder]
  | functionRest => simp [body, functionRest, inOrder]
  | declarators => simp [body, declarators, inOrder]
  | typeRef => simp [body, typeRef, inOrder]
  | typeArgs => simp [body, typeArgs, inOrder]
  | paramList => simp [body, paramList, parameterOrMark, inOrder]
  | param => simp [body, param, inOrder]
  | functionBody inExpression => simp [body, functionBody, bodyMark, inOrder]
  | block =>
    exact ⟨resolves_closed (resolves_insisting (fun _ => rfl) _ _) (by decide),
      .inl (resolves_expect _)⟩
  | statement => simp [body, statement, inOrder, guardedBlock, resolves_wordStatement]
  | localVar => simp [body, localVar, inOrder]
  | exprStmt => simp [body, exprStmt, inOrder]
  | expr => simp [body, expr, inOrder]
  | unary => simp [body, unary, inOrder]
  | operand =>
    intro ts
    dsimp only
    cases h : primary? ts with
    | none => simp [missingExpr, inOrder]
    | some primary =>
      refine ⟨.inl fun us => ?_, .inl (resolves_primary h)⟩
      cases hs : suffix? us with
      | none => simp [hs]
      | some s => simpa [hs] using resolves_suffix hs
  | collection form =>
    have hclosing : "expected " ++ form.closing.label ≠ "expected an element" := by
      cases form <;> decide
    have hloop : (.commaList (before [form.closing]) element : Act).Resolves _ := resolves_element
    have htypes : (given (startsWith .lAngle) (.call .typeArgs) : Act).Resolves none := by simp
    exact ⟨⟨⟨resolves_closed hloop hclosing, .inl (resolves_expect _)⟩, .inl htypes⟩,
      .inl (resolves_eat _)⟩
  | newExpr => simp [body, newExpr, constructorCall, nameRef, inOrder]
  | argList =>
    have hloop : (.commaList (before [.rParen]) argument : Act).Resolves _ := resolves_argument
    exact ⟨resolves_closed hloop (by decide), .inl (resolves_expect _)⟩

theorem resolves_file : file.Resolves none :=
  .inr ⟨.item, _, rfl, fun _ => rfl, .inr (by simp)⟩

end Grammar

namespace Step

open Grammar

theorem exists_owed_of_first {first second : Act}
    (h : first.Resolves none ∨
      ∃ rule message, first.Resolves (some (rule, message)) ∧ second.Departs message) :
    ∃ owed, first.Resolves owed ∧
      ∀ rule message, owed = some (rule, message) → second.Departs message := by
  rcases h with h | ⟨rule, message, h, hdeparts⟩
  · exact ⟨none, h, by simp⟩
  · exact ⟨some (rule, message), h, by rintro _ _ ⟨⟩; exact hdeparts⟩

theorem exists_owed_of_turn {owed : Option (Rule × String)} {test : List Token → Bool} {s : Act}
    (h : (.repeatWhile test s : Act).Resolves owed) :
    ∃ owed', s.Resolves owed' ∧ ∀ rule message, owed' = some (rule, message) →
      s = .insist (.call rule) (skipGroup message) ∧ (∀ ts, patient rule ts = true) ∧
        (owed = some (rule, message) ∨ ∀ ts ≠ [], test ts = true) := by
  rcases h with h | ⟨rule, message, rfl, hinsists⟩
  · exact ⟨none, h, by simp⟩
  · exact ⟨some (rule, message), by simp, by rintro _ _ ⟨⟩; exact ⟨rfl, hinsists⟩⟩

inductive Outcome (ts us : List Token) (owed : Option (Rule × String)) (s : Act)
    (b c b' c' : Builder) : Prop
  | abreast : b'.Abreast ts us c' → StallsWithin body ts us s b → StallsWithin body us ts s c →
      Outcome ts us owed s b c b' c'
  | parted : b'.Parted ts us c' → Outcome ts us owed s b c b' c'
  | owesLeft {rule : Rule} {message : String} {i : Nat} : owed = some (rule, message) →
      b'.Owes ts us rule message i c' → Outcome ts us owed s b c b' c'
  | owesRight {rule : Rule} {message : String} {i : Nat} : owed = some (rule, message) →
      c'.Owes us ts rule message i b' → Outcome ts us owed s b c b' c'

variable {ts us : List Token} {owed : Option (Rule × String)} {rule : Rule} {message : String}
  {s t : Act} {b m b' c m' c' d e : Builder}

theorem Outcome.of_part (h : Outcome ts us owed s b c b' c')
    (hts : StallsWithin body ts us s b → StallsWithin body ts us t d)
    (hus : StallsWithin body us ts s c → StallsWithin body us ts t e) :
    Outcome ts us owed t d e b' c' := by
  cases h with
  | abreast hread hb hc => exact .abreast hread (hts hb) (hus hc)
  | parted hparted => exact .parted hparted
  | owesLeft howed h => exact .owesLeft howed h
  | owesRight howed h => exact .owesRight howed h

theorem Outcome.built (trees trees' : List Tree) (h : Outcome ts us owed s b c b' c') :
    Outcome ts us owed s b c { b' with built := trees } { c' with built := trees' } := by
  cases h with
  | abreast hread hb hc => exact .abreast (hread.built trees trees') hb hc
  | parted hparted => exact .parted hparted
  | owesLeft howed h =>
    exact .owesLeft howed ⟨h.stands.same rfl rfl rfl rfl, h.ahead, h.balks, h.errors, h.place⟩
  | owesRight howed h =>
    exact .owesRight howed ⟨h.stands.same rfl rfl rfl rfl, h.ahead, h.balks, h.errors, h.place⟩

theorem Outcome.of_none (h : Outcome ts us none s b c b' c') :
    b'.Abreast ts us c' ∧ StallsWithin body ts us s b ∧ StallsWithin body us ts s c ∨
      b'.Parted ts us c' := by
  cases h with
  | abreast hread hb hc => exact .inl ⟨hread, hb, hc⟩
  | parted hparted => exact .inr hparted
  | owesLeft howed | owesRight howed => cases howed

section Insist

variable (hsame : significant ts = significant us)
include hsame

theorem gap_of_moved (h : Runs body s c c') (hbc : b.Abreast ts us c)
    (hmoved : ¬ (c'.taken = c.taken ∧ c'.atEnd = false)) (hahead : c'.ahead = c.ahead)
    (hne : c.ahead ≠ []) {i : Nat} (hi : b.ahead = (significant ts).drop i) :
    gapBefore us i ≠ [] := by
  obtain ⟨j, fresh, hb, hc⟩ := hbc.stands
  obtain rfl := hb.index_eq hi (hbc.ahead hsame ▸ hne)
  exact (h.took_gap hc hahead hne hmoved).2.1

theorem owes_of_stuck (hus : ∀ t ∈ us, t.text ≠ "") (hbc : b.Abreast ts us c)
    (hbc' : b'.Abreast ts us c') (h : Runs body (.call rule) b b')
    (hmoved : ¬ (b'.taken = b.taken ∧ b'.atEnd = false)) (h' : Runs body (.call rule) c c')
    (hstuck : c'.taken = c.taken ∧ c'.atEnd = false) (hskip : Runs body (skipGroup message) c' m') :
    ∃ i, b'.Owes ts us rule message i m' := by
  obtain ⟨hstay, hne⟩ := h'.stays_of_stuck hsame hbc hbc' hstuck
  obtain ⟨i, fresh, hb, hc⟩ := hbc.stands
  obtain ⟨j, fresh', hb', hc'⟩ := hbc'.stands
  obtain rfl := hb.index_eq (hstay.symm.trans hb'.ahead) hne
  refine ⟨j, (h.took_gap hb hstay hne hmoved).2.2, hstay ▸ hne, ⟨b, b', h, hstay.symm, rfl⟩,
    ⟨[], c'.errors, ?_, hbc'.errors, by simp⟩, ?_⟩
  · rw [skipGroup_reports hskip, hc'.place]
    rfl
  · obtain ⟨k, fresh'', hm⟩ := hskip.stands ⟨j, fresh', hc'⟩
    have hlt := skipGroup_takes hskip (by rw [hbc'.ahead hsame, hstay]; exact hne)
    rw [hm.place]
    rw [hm.ahead, hc'.ahead] at hlt
    simp only [List.length_drop] at hlt
    exact startOf_lt hus (by omega) (by omega)

end Insist

theorem Runs.outcome (hsame : significant ts = significant us) (hts : ∀ t ∈ ts, t.text ≠ "")
    (hus : ∀ t ∈ us, t.text ≠ "") (h : Runs body s b b') (h' : Runs body s c c')
    (hbc : b.Abreast ts us c) (hs : s.Resolves owed) : Outcome ts us owed s b c b' c' := by
  induction h generalizing c c' owed with
  | done => cases h'; exact .abreast hbc .done .done
  | take => cases h'; exact .abreast (hbc.take hsame) .take .take
  | report message => cases h'; exact .abreast (hbc.report message) .report .report
  | look _ ih =>
    have hahead := hbc.ahead hsame
    cases h' with
    | look h' => exact (ih (hahead ▸ h') hbc (hs _)).of_part .look fun h => .look (hahead ▸ h)
  | @andThen s t b m b' hfirst hsecond ihs iht =>
    obtain ⟨ht, hs⟩ := hs
    obtain ⟨owed', hs, hdeparts⟩ := exists_owed_of_first hs
    cases h' with
    | andThen hfirst' hsecond' =>
      cases ihs hfirst' hbc hs with
      | abreast hm hb hc =>
        exact (iht hsecond' hm ht).of_part (.andThen hfirst hb) (.andThen hfirst' hc)
      | parted hparted => exact .parted (hparted.later hsecond.later hsecond'.later)
      | owesLeft heq howes =>
        have hparted := howes.parted_of_departs hts hus hsame (hdeparts _ _ heq) hsecond
        exact .parted (hparted.later (.of_eq rfl rfl) hsecond'.later)
      | owesRight heq howes =>
        have hparted := howes.parted_of_departs hus hts hsame.symm (hdeparts _ _ heq) hsecond'
        exact .parted (hparted.symm.later hsecond.later (.of_eq rfl rfl))
  | node _ ih =>
    cases h' with
    | node h' => exact ((ih h' (hbc.attach.built _ _) hs).of_part .node .node).built _ _
  | group _ ih =>
    cases h' with
    | group h' => exact ((ih h' (hbc.attach.built _ _) hs).of_part .group .group).built _ _
  | wrap _ ih =>
    cases h' with
    | wrap h' => exact ((ih h' hbc hs).of_part .wrap .wrap).built _ _
  | insistMoved hcall hmoved ih =>
    obtain ⟨-, rule, message, rfl, rfl, rfl⟩ := hs
    cases h' with
    | insistMoved hcall' hmoved' =>
      rcases (ih hcall' hbc trivial).of_none with ⟨htried, hb, hc⟩ | hparted
      · have hahead := hbc.ahead hsame
        have hahead' := htried.ahead hsame
        refine .abreast htried (.insistMoved hcall hmoved hb fun i hne hstay hi => ?_)
          (.insistMoved hcall' hmoved' hc fun i hne hstay hi => ?_)
        · exact gap_of_moved hsame hcall' hbc hmoved' (by rw [hahead', hstay, hahead])
            (hahead ▸ hne) hi
        · exact gap_of_moved hsame.symm hcall hbc.symm hmoved (by rw [← hahead', hstay, hahead])
            (hahead ▸ hne) hi
      · exact .parted hparted
    | insistStuck hcall' hstuck' hskip' =>
      rcases (ih hcall' hbc trivial).of_none with ⟨htried, -, -⟩ | hparted
      -- Only the first rule moved, and by trivia: it owes what is reported of the second.
      · obtain ⟨i, howes⟩ := owes_of_stuck hsame hus hbc htried hcall hmoved hcall' hstuck' hskip'
        exact .owesLeft rfl howes
      · exact .parted (hparted.later (.of_eq rfl rfl) hskip'.later)
  | insistStuck hcall hstuck hskip ihs ihr =>
    obtain ⟨hrecovery, rule, message, rfl, rfl, rfl⟩ := hs
    cases h' with
    | insistMoved hcall' hmoved' =>
      rcases (ihs hcall' hbc trivial).of_none with ⟨htried, -, -⟩ | hparted
      · obtain ⟨i, howes⟩ := owes_of_stuck hsame.symm hts hbc.symm htried.symm hcall' hmoved' hcall
          hstuck hskip
        exact .owesRight rfl howes
      · exact .parted (hparted.later hskip.later (.of_eq rfl rfl))
    | insistStuck hcall' hstuck' hskip' =>
      rcases (ihs hcall' hbc trivial).of_none with ⟨htried, hb, hc⟩ | hparted
      · rcases (ihr hskip' htried hrecovery).of_none with ⟨hread, hb', hc'⟩ | hparted
        · exact .abreast hread (.insistStuck hcall hstuck hb hb')
            (.insistStuck hcall' hstuck' hc hc')
        · exact .parted hparted
      · exact .parted (hparted.later hskip.later hskip'.later)
  | repeatStop ht =>
    cases h' with
    | repeatStop ht' => exact .abreast hbc (.repeatStop ht) (.repeatStop ht')
    | repeatTurn ht' => simp [hbc.ahead hsame, ht] at ht'
  | @repeatTurn test s b m b' ht hturn hrest ihs ihr =>
    obtain ⟨owed', hs', hinsists⟩ := exists_owed_of_turn hs
    cases h' with
    | repeatStop ht' => simp [hbc.ahead hsame, ht] at ht'
    | repeatTurn ht' hturn' hrest' =>
      cases ihs hturn' hbc hs' with
      | abreast hm hb hc =>
        exact (ihr hrest' hm hs).of_part (.repeatTurn hturn hb) (.repeatTurn hturn' hc)
      | parted hparted => exact .parted (hparted.later hrest.later hrest'.later)
      | owesLeft heq howes =>
        obtain ⟨rfl, hpatient, hend⟩ := hinsists _ _ heq
        rcases howes.after_turn hts hpatient hrest with hparted | ⟨hstop, rfl⟩
        · exact .parted (hparted.later (.of_eq rfl rfl) hrest'.later)
        · have howed := hend.resolve_right fun hgo => by simp [hgo _ howes.ahead] at hstop
          exact .owesLeft howed (howes.later hrest'.later)
      | owesRight heq howes =>
        obtain ⟨rfl, hpatient, hend⟩ := hinsists _ _ heq
        rcases howes.after_turn hus hpatient hrest' with hparted | ⟨hstop, rfl⟩
        · exact .parted (hparted.symm.later hrest.later (.of_eq rfl rfl))
        · have howed := hend.resolve_right fun hgo => by simp [hgo _ howes.ahead] at hstop
          exact .owesRight howed (howes.later hrest.later)
  | commaStop ht =>
    cases h' with
    | commaStop ht' => exact .abreast hbc (.commaStop ht) (.commaStop ht')
    | commaLast ht' | commaMore ht' => simp [hbc.ahead hsame, ht] at ht'
  | commaLast ht hlast hcomma ih =>
    cases h' with
    | commaStop ht' => simp [hbc.ahead hsame, ht] at ht'
    | commaLast _ hlast' hcomma' =>
      exact (ih hlast' hbc hs).of_part (.commaLast hlast hcomma) (.commaLast hlast' hcomma')
    | commaMore _ hturn' hcomma' hrest' =>
      cases ih hturn' hbc hs with
      | abreast hm => simp [hm.ahead hsame, hcomma] at hcomma'
      | parted hparted =>
        exact .parted (hparted.later (.of_eq rfl rfl) (.trans (.take _) hrest'.later))
      | owesLeft heq howes => exact .owesLeft heq (howes.later (.trans (.take _) hrest'.later))
      | owesRight heq howes =>
        have hparted := howes.parted_take hus hts hsame.symm
        exact .parted (hparted.symm.later (.of_eq rfl rfl) hrest'.later)
  | commaMore ht hturn hcomma hrest ihs ihr =>
    cases h' with
    | commaStop ht' => simp [hbc.ahead hsame, ht] at ht'
    | commaLast _ hlast' hcomma' =>
      cases ihs hlast' hbc hs with
      | abreast hm => simp [hm.ahead hsame, hcomma] at hcomma'
      | parted hparted =>
        exact .parted (hparted.later (.trans (.take _) hrest.later) (.of_eq rfl rfl))
      | owesLeft heq howes =>
        have hparted := howes.parted_take hts hus hsame
        exact .parted (hparted.later hrest.later (.of_eq rfl rfl))
      | owesRight heq howes => exact .owesRight heq (howes.later (.trans (.take _) hrest.later))
    | commaMore _ hturn' _ hrest' =>
      cases ihs hturn' hbc hs with
      | abreast hm hb hc =>
        exact (ihr hrest' (hm.take hsame) hs).of_part (.commaMore hturn hb) (.commaMore hturn' hc)
      | parted hparted =>
        exact .parted (hparted.later (.trans (.take _) hrest.later) (.trans (.take _) hrest'.later))
      | owesLeft heq howes =>
        have hparted := howes.parted_take hts hus hsame
        exact .parted (hparted.later hrest.later (.trans (.take _) hrest'.later))
      | owesRight heq howes =>
        have hparted := howes.parted_take hus hts hsame.symm
        exact .parted (hparted.symm.later (.trans (.take _) hrest.later) hrest'.later)
  | @call rule _ _ _ ih =>
    cases h' with
    | call h' =>
      rcases (ih h' hbc (resolves_body rule)).of_none with ⟨hread, hb, hc⟩ | hparted
      · exact .abreast hread (.call hb) (.call hc)
      · exact .parted hparted

end Step

theorem Parse.errors_correspond_iff {ts us : List Token} (hsame : significant ts = significant us)
    (hts : ∀ t ∈ ts, t.text ≠ "") (hus : ∀ t ∈ us, t.text ≠ "") :
    List.Forall₂ (ParseError.Corresponds ts us) (ofTokens ts).errors (ofTokens us).errors ↔
      (∀ i, StallsAt ts i → gapBefore us i ≠ []) ∧ (∀ i, StallsAt us i → gapBefore ts i ≠ []) := by
  refine ⟨fun hall => ?_, fun h => errors_correspond hsame h.1 h.2⟩
  have hread := (runs_file ts).outcome hsame hts hus (runs_file us)
    (Builder.abreast_ofTokens ts us) Grammar.resolves_file
  rcases hread.of_none with ⟨-, hleft, hright⟩ | hparted
  · exact ⟨fun i ⟨s, b, hreach, hstall, hi⟩ => hleft s b i hreach hstall hi,
      fun i ⟨s, b, hreach, hstall, hi⟩ => hright s b i hreach hstall hi⟩
  · rw [ofTokens_eq, ofTokens_eq, List.forall₂_reverse_iff] at hall
    exact absurd hall (hparted [] [] (by simp) (by simp))

theorem parse_errors_correspond_iff {text other : String}
    (hsame : significant (Token.scan text) = significant (Token.scan other)) :
    List.Forall₂ (ParseError.Corresponds (Token.scan text) (Token.scan other))
        (parse text).errors (parse other).errors ↔
      (∀ i, Parse.StallsAt (Token.scan text) i → gapBefore (Token.scan other) i ≠ []) ∧
      (∀ i, Parse.StallsAt (Token.scan other) i → gapBefore (Token.scan text) i ≠ []) :=
  Parse.errors_correspond_iff hsame (Token.scans_scanChars _).text_ne_empty
    (Token.scans_scanChars _).text_ne_empty

theorem parse_errors_correspond_iff_brace :
    significant (Token.scan r"}") = significant (Token.scan r" }") ∧
    ∃ i, Parse.StallsAt (Token.scan r" }") i ∧ gapBefore (Token.scan r"}") i = [] := by
  have hsame : significant (Token.scan r"}") = significant (Token.scan r" }") := by
    decide +kernel
  refine ⟨hsame, ?_⟩
  by_contra hnone
  have hscan : Token.scan r"}" = [⟨.rBrace, r"}"⟩] := by decide +kernel
  have hgap (i : Nat) : gapBefore (Token.scan r"}") i = [] := by
    rw [hscan]
    rcases i with _ | _ | i <;> rfl
  have hall := (parse_errors_correspond_iff hsame).2
    ⟨fun i hstall => absurd (hgap i) hstall.gap, fun i hstall => absurd ⟨i, hstall, hgap i⟩ hnone⟩
  have hcount : (parse r"}").errors.length = (parse r" }").errors.length := hall.length_eq
  revert hcount
  decide +kernel

theorem parse_errors_of_space_before_brace :
    ¬ ∀ text other : String, significant (Token.scan text) = significant (Token.scan other) →
      List.Forall₂ (ParseError.Corresponds (Token.scan text) (Token.scan other))
        (parse text).errors (parse other).errors := by
  intro h
  have hall := h r"}" r" }" (by decide +kernel)
  have hcount : (parse r"}").errors.length = (parse r" }").errors.length := hall.length_eq
  revert hcount
  decide +kernel

end CrossReference.Source
