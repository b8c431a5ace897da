import CrossReference.Proofs.Reading.Header

namespace CrossReference.Source

open Lookahead Step Grammar

theorem declarationForm_wraps (owner : Option String) (ts : List Token) :
    ∃ kind s, declarationForm owner ts = .wrap kind s ∧ kind ≠ .importDirective ∧
      kind ≠ .directive := by
  have hfunction : functionKind owner ≠ .importDirective ∧ functionKind owner ≠ .directive := by
    cases owner <;> simp [functionKind]
  have hvariables : variablesKind owner ≠ .importDirective ∧ variablesKind owner ≠ .directive := by
    cases owner <;> simp [variablesKind]
  rw [declarationForm]
  split
  · exact ⟨_, _, rfl, by decide, by decide⟩
  · split
    · exact ⟨_, _, rfl, by decide, by decide⟩
    · split
      · exact ⟨_, _, rfl, hfunction⟩
      · split
        · rw [typedDeclaration]
          split
          · exact ⟨_, _, rfl, by decide, by decide⟩
          · split
            · exact ⟨_, _, rfl, hfunction⟩
            · split
              · exact ⟨_, _, rfl, by decide, by decide⟩
              · split
                · exact ⟨_, _, rfl, hfunction⟩
                · exact ⟨_, _, rfl, hvariables⟩
        · split
          · exact ⟨_, _, rfl, hfunction⟩
          · split
            · exact ⟨_, _, rfl, hvariables⟩
            · exact ⟨_, _, rfl, by decide, by decide⟩

theorem built_node {kind : NodeKind} {s : Act} {b z : Builder}
    (h : Runs Grammar.body (.node kind s) b z) :
    ∃ children, z.built = .node kind children :: b.attach.built := by
  cases h
  exact ⟨_, rfl⟩

theorem built_declaration {b z : Builder} (h : Runs Grammar.body (declaration none) b z) :
    ∃ kind children, z.built = .node kind children :: b.attach.built ∧ kind ≠ .importDirective ∧
      kind ≠ .directive := by
  cases h with
  | group h =>
    cases h with
    | @andThen _ _ _ m _ _ h =>
      cases h with
      | look h =>
        obtain ⟨kind, s, hs, hkind⟩ := declarationForm_wraps none m.ahead
        rw [hs] at h
        cases h
        exact ⟨kind, _, rfl, hkind⟩

theorem built_directive {b z : Builder} {t : Token} {ts : List Token}
    (h : Runs Grammar.body Grammar.directive b z) (hb : b.ahead = t :: ts)
    (ht : t.kind ≠ .semicolon) :
    ∃ children more, z.built = .node .directive children :: b.attach.built ∧
      Tree.tokensAll children = t :: more := by
  cases h with
  | node h =>
    cases h with
    | andThen hloop hexpect =>
      cases hloop with
      | repeatStop hstop => simp [hb, before_cons, ht] at hstop
      | repeatTurn _ htake hrest =>
        cases htake
        have hopened : b.opened.ahead = t :: ts := hb
        have hseen : b.opened.take.seen = [t] := by
          rw [Builder.take_of_cons hopened]
          rfl
        obtain ⟨more, hmore⟩ := hrest.seen_prefix.trans hexpect.seen_prefix
        rw [hseen] at hmore
        exact ⟨_, more, rfl, hmore.symm⟩

def Tree.StartsBody (t : Token) : Tree → Prop
  | .node .importDirective _ => False
  | .node .directive children =>
    t.kind = .partKw ∧ (tokensAll children).head? = some t
  | .node _ _ => True
  | .leaf _ => False

theorem built_item {b z : Builder} {t : Token} {ts : List Token}
    (h : Runs Grammar.body item b z) (hb : b.ahead = t :: ts)
    (ht : t.kind.opensHeader = false) :
    ∃ tree, z.built = tree :: b.attach.built ∧ tree.StartsBody t := by
  have himport : t.kind ≠ .importKw := by
    intro hk
    simp [hk, TokenKind.opensHeader] at ht
  cases h with
  | look h =>
    simp only [hb, startsWith, kind?, List.head?_cons, Option.map_some, Option.some_beq_some,
      beq_iff_eq, himport, if_false] at h
    split at h
    · next hkinds =>
      have hpart : t.kind = .partKw := by
        have hkinds : t.kind = .exportKw ∨ t.kind = .libraryKw ∨ t.kind = .partKw := by
          simpa [startsWithAny] using hkinds
        rcases hkinds with hk | hk | hk
        · simp [hk, TokenKind.opensHeader] at ht
        · simp [hk, TokenKind.opensHeader] at ht
        · exact hk
      cases h with
      | call h =>
        obtain ⟨children, more, hbuilt, htokens⟩ := built_directive h hb (by simp [hpart])
        exact ⟨_, hbuilt, hpart, by simp [htokens]⟩
    · split at h
      · cases h with
        | call h =>
          obtain ⟨children, hbuilt⟩ := built_node h
          exact ⟨_, hbuilt, trivial⟩
      · split at h
        · cases h with
          | call h =>
            obtain ⟨children, hbuilt⟩ := built_node h
            exact ⟨_, hbuilt, trivial⟩
        · split at h
          · cases h with
            | call h =>
              obtain ⟨children, hbuilt⟩ := built_node h
              exact ⟨_, hbuilt, trivial⟩
          · cases h with
            | call h =>
              obtain ⟨kind, children, hbuilt, hi, hd⟩ := built_declaration h
              refine ⟨_, hbuilt, ?_⟩
              cases kind <;> trivial

namespace Parse

theorem runs_turn {ts : List Token} (hts : significant ts ≠ []) :
    ∃ m, Runs Grammar.body Grammar.turn (.ofTokens ts) m := by
  have hahead : (!(Builder.ofTokens ts).ahead.isEmpty) = true := by
    simpa [Builder.ofTokens] using hts
  have hfile := runs_file ts
  rw [file_eq] at hfile
  generalize Builder.ofTokens ts = b at hfile hahead ⊢
  generalize readTokens ts = z at hfile
  cases hfile with
  | repeatStop hstop => simp [hstop] at hahead
  | repeatTurn _ hturn _ => exact ⟨_, hturn⟩

theorem built_turn {b m : Builder} {t : Token} {ts : List Token}
    (h : Runs Grammar.body Grammar.turn b m) (hb : b.ahead = t :: ts)
    (ht : t.kind.opensHeader = false) :
    ∃ tree more, m.built = more ++ tree :: b.attach.built ∧ tree.StartsBody t := by
  cases h with
  | insistMoved hcall _ =>
    cases hcall with
    | call hitem =>
      obtain ⟨tree, hbuilt, htree⟩ := built_item hitem hb ht
      exact ⟨tree, [], hbuilt, htree⟩
  | @insistStuck _ _ _ tried _ hcall _ hskip =>
    cases hcall with
    | call hitem =>
      obtain ⟨tree, hbuilt, htree⟩ := built_item hitem hb ht
      cases hskip with
      | andThen hreport hnode =>
        cases hreport
        obtain ⟨children, hskipped⟩ := built_node hnode
        refine ⟨tree, .node .error children :: (tried.pending.map .leaf).reverse, ?_, htree⟩
        rw [hskipped, List.cons_append, ← hbuilt]
        rfl

theorem ofTokens_body {gap rest : List Token} {t : Token} (hgap : ∀ g ∈ gap, g.isTrivia)
    (hsig : t.isTrivia = false) (ht : t.kind.opensHeader = false) :
    ∃ tree more, (ofTokens (gap ++ t :: rest)).items = gap.map .leaf ++ tree :: more ∧
      tree.StartsBody t := by
  have hahead : significant (gap ++ t :: rest) = t :: significant rest := significant_gap hgap hsig
  have hne : significant (gap ++ t :: rest) ≠ [] := by simp [hahead]
  have hattach : (Builder.ofTokens (gap ++ t :: rest)).attach.built = (gap.map .leaf).reverse := by
    simp [Builder.attach, Builder.ofTokens, leadingTrivia_gap hgap hsig]
  obtain ⟨m, hturn⟩ := runs_turn hne
  obtain ⟨tree, more, hbuilt, htree⟩ := built_turn hturn hahead ht
  refine ⟨tree, more.reverse ++ (ofTokens m.left).items, ?_, htree⟩
  rw [(ofTokens_of_turn hne hturn).1, hbuilt, hattach]
  simp

end Parse

namespace Step

variable {ρ : Type} {grammar : ρ → Step ρ}

/-- Steps that put the trivia before them away first of all. -/
def Opens (closed : ρ → Prop) : Step ρ → Prop
  | .node _ _ | .group _ => True
  | .look choose => ∀ ts, (choose ts).Opens closed
  | .call rule => closed rule
  | _ => False

theorem Runs.of_attach {closed : ρ → Prop}
    (hclosed : ∀ rule, closed rule → (grammar rule).Opens closed) {s : Step ρ} {b z : Builder}
    (hs : s.Opens closed) (h : Runs grammar s b.attach z) : Runs grammar s b z := by
  generalize hc : b.attach = c at h
  induction h with
  | look _ ih =>
    subst hc
    exact .look (ih (hs _) rfl)
  | call _ ih => exact .call (ih (hclosed _ hs) hc)
  | node h _ =>
    subst hc
    exact .node h
  | group h _ =>
    subst hc
    exact .group h
  | _ => exact absurd hs id

end Step

theorem Grammar.opens_body (rule : Rule) (h : IsItem rule) : (body rule).Opens IsItem := by
  cases rule with
  | item =>
    obtain ⟨choose, hitem, hcalls⟩ := item_calls
    rw [body, hitem]
    intro ts
    obtain ⟨rule, hrule, hmade⟩ := hcalls ts
    rw [hrule]
    exact hmade
  | importDirective | directive | metadata | unsupportedItem | classDecl => trivial
  | declaration => trivial
  | _ => exact absurd h id

namespace Parse

section Gap

variable {gap rest : List Token} {t : Token}

theorem attach_ofTokens (hgap : ∀ g ∈ gap, g.isTrivia) (hsig : t.isTrivia = false) :
    (Builder.ofTokens (gap ++ t :: rest)).attach =
      (Builder.ofTokens (t :: rest)).lift (byteSize gap) gap.length (gap.map .leaf).reverse [] := by
  have hnil : leadingTrivia (t :: rest) = [] := by simp [leadingTrivia, hsig]
  have hahead : significant (t :: rest) = t :: significant rest := by simp [significant, hsig]
  have hgaps : gapsOf (t :: rest) = leadingTrivia rest :: gapsOf rest := by simp [gapsOf, hsig]
  simp [Builder.ofTokens, Builder.attach, Builder.lift, leadingTrivia_gap hgap hsig,
    significant_gap hgap hsig, gapsOf_gap hgap hsig, hnil, hahead, hgaps]

theorem runs_item_gap (hgap : ∀ g ∈ gap, g.isTrivia) (hsig : t.isTrivia = false) {z : Builder}
    (h : Runs Grammar.body (.call .item) (.ofTokens (t :: rest)) z) :
    Runs Grammar.body (.call .item) (.ofTokens (gap ++ t :: rest))
      (z.lift (byteSize gap) gap.length (gap.map .leaf).reverse []) := by
  refine .of_attach Grammar.opens_body trivial ?_
  rw [attach_ofTokens hgap hsig]
  exact h.lift Grammar.seals_body _ _ _ _ (.inr trivial)

theorem ofTokens_gap_turn (hgap : ∀ g ∈ gap, g.isTrivia) (hsig : t.isTrivia = false) {z : Builder}
    (h : Runs Grammar.body Grammar.turn (.ofTokens (gap ++ t :: rest))
      (z.lift (byteSize gap) gap.length (gap.map .leaf).reverse [])) :
    (ofTokens (gap ++ t :: rest)).items =
      gap.map .leaf ++ (z.built.reverse ++ (ofTokens z.left).items) ∧
    (ofTokens (gap ++ t :: rest)).errors.length =
      z.errors.length + (ofTokens z.left).errors.length := by
  have hne : significant (gap ++ t :: rest) ≠ [] := by
    rw [significant_gap hgap hsig]
    simp
  obtain ⟨hitems, herrors⟩ := ofTokens_of_turn hne h
  have hleft : (z.lift (byteSize gap) gap.length (gap.map .leaf).reverse []).left = z.left := rfl
  rw [hleft] at hitems herrors
  refine ⟨?_, ?_⟩
  · rw [hitems]
    simp [Builder.lift]
  · rw [herrors]
    simp [Builder.lift]

theorem runs_turn_of_no_errors {ts : List Token} {z : Builder} (hts : significant ts ≠ [])
    (h : (ofTokens ts).errors = []) (hz : Runs Grammar.body (.call .item) (.ofTokens ts) z) :
    Runs Grammar.body Grammar.turn (.ofTokens ts) z := by
  obtain ⟨m, hm⟩ := runs_turn hts
  have herrors : m.errors = [] := by
    have heq := (ofTokens_of_turn hts hm).2
    rw [h] at heq
    simpa using (List.append_eq_nil_iff.1 heq.symm).1
  cases hm with
  | insistMoved hcall hmoved =>
    obtain rfl := hz.unique hcall
    exact .insistMoved hcall hmoved
  | insistStuck hcall hstuck hskip =>
    cases hskip with
    | andThen hreport hnode =>
      cases hreport
      have hsuffix := hnode.errors_suffix
      rw [herrors] at hsuffix
      simp [Builder.report] at hsuffix

theorem ofTokens_regap {gap' : List Token} (hgap : ∀ g ∈ gap, g.isTrivia)
    (hgap' : ∀ g ∈ gap', g.isTrivia) (hne : gap' ≠ []) (hsig : t.isTrivia = false)
    (h : (ofTokens (gap ++ t :: rest)).errors = []) :
    ∃ trees, (ofTokens (gap ++ t :: rest)).items = gap.map .leaf ++ trees ∧
      (ofTokens (gap' ++ t :: rest)).items = gap'.map .leaf ++ trees ∧
      (ofTokens (gap' ++ t :: rest)).errors = [] := by
  obtain ⟨z, hz⟩ : ∃ z, Runs Grammar.body (.call .item) (.ofTokens (t :: rest)) z := by
    have hsome : significant (t :: rest) ≠ [] := by simp [significant, hsig]
    obtain ⟨m, hm⟩ := runs_turn hsome
    cases hm with
    | insistMoved hcall _ => exact ⟨_, hcall⟩
    | insistStuck hcall _ _ => exact ⟨_, hcall⟩
  have hsome : significant (gap ++ t :: rest) ≠ [] := by
    rw [significant_gap hgap hsig]
    simp
  have hturn := runs_turn_of_no_errors hsome h (runs_item_gap hgap hsig hz)
  have hturn' : Runs Grammar.body Grammar.turn (.ofTokens (gap' ++ t :: rest))
      (z.lift (byteSize gap') gap'.length (gap'.map .leaf).reverse []) := by
    refine .insistMoved (runs_item_gap hgap' hsig hz) fun hstuck => ?_
    have hlen : gap'.length + z.taken = 0 := hstuck.1
    exact hne (List.length_eq_zero_iff.1 (by omega))
  obtain ⟨hitems, herrors⟩ := ofTokens_gap_turn hgap hsig hturn
  obtain ⟨hitems', herrors'⟩ := ofTokens_gap_turn hgap' hsig hturn'
  refine ⟨_, hitems, hitems', List.length_eq_zero_iff.1 ?_⟩
  rw [herrors', ← herrors, h]
  rfl

end Gap

end Parse

end CrossReference.Source
