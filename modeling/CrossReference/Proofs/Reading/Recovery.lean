import CrossReference.Proofs.Reading.Standing

/-!
What layout does to recovery. The grammar looks at significant tokens only, but a rule that has to
move counts as moved once it took the trivia in front of it. Where one file has such a rule take
trivia and nothing else, another file with the same significant tokens goes on the same way if it
has trivia there too.
-/

namespace CrossReference.Source

open Lookahead

namespace Step

variable {ρ : Type} {grammar : ρ → Step ρ} {ts us : List Token}

inductive Reaches (grammar : ρ → Step ρ) : Step ρ → Builder → Step ρ → Builder → Prop
  | here {s : Step ρ} {b : Builder} : Reaches grammar s b s b
  | look {choose : List Token → Step ρ} {u : Step ρ} {b d : Builder} :
      Reaches grammar (choose b.ahead) b u d → Reaches grammar (.look choose) b u d
  | first {s t u : Step ρ} {b d : Builder} :
      Reaches grammar s b u d → Reaches grammar (.andThen s t) b u d
  | second {s t u : Step ρ} {b m d : Builder} :
      Runs grammar s b m → Reaches grammar t m u d → Reaches grammar (.andThen s t) b u d
  | node {kind : NodeKind} {s u : Step ρ} {b d : Builder} :
      Reaches grammar s b.opened u d → Reaches grammar (.node kind s) b u d
  | group {s u : Step ρ} {b d : Builder} :
      Reaches grammar s b.opened u d → Reaches grammar (.group s) b u d
  | wrap {kind : NodeKind} {s u : Step ρ} {b d : Builder} :
      Reaches grammar s b u d → Reaches grammar (.wrap kind s) b u d
  | insisted {s recovery u : Step ρ} {b d : Builder} :
      Reaches grammar s b u d → Reaches grammar (.insist s recovery) b u d
  | recovery {s recovery u : Step ρ} {b tried d : Builder} :
      Runs grammar s b tried → tried.taken = b.taken ∧ tried.atEnd = false →
      Reaches grammar recovery tried u d → Reaches grammar (.insist s recovery) b u d
  | turn {test : List Token → Bool} {s u : Step ρ} {b d : Builder} :
      test b.ahead = true → Reaches grammar s b u d → Reaches grammar (.repeatWhile test s) b u d
  | nextTurn {test : List Token → Bool} {s u : Step ρ} {b m d : Builder} :
      test b.ahead = true → Runs grammar s b m → Reaches grammar (.repeatWhile test s) m u d →
      Reaches grammar (.repeatWhile test s) b u d
  | element {test : List Token → Bool} {s u : Step ρ} {b d : Builder} :
      test b.ahead = true → Reaches grammar s b u d → Reaches grammar (.commaList test s) b u d
  | nextElement {test : List Token → Bool} {s u : Step ρ} {b m d : Builder} :
      test b.ahead = true → Runs grammar s b m → startsWith .comma m.ahead = true →
      Reaches grammar (.commaList test s) m.take u d → Reaches grammar (.commaList test s) b u d
  | call {rule : ρ} {u : Step ρ} {b d : Builder} :
      Reaches grammar (grammar rule) b u d → Reaches grammar (.call rule) b u d

/-- A step that insists on its body, on a builder where the body takes trivia and no token: the body
counts as moved and what was meant for this case is not run. -/
inductive Stalls (grammar : ρ → Step ρ) : Step ρ → Builder → Prop
  | insist {s recovery : Step ρ} {b tried : Builder} :
      Runs grammar s b tried → b.ahead ≠ [] → tried.ahead = b.ahead → tried.taken ≠ b.taken →
      Stalls grammar (.insist s recovery) b

def StallsWithin (grammar : ρ → Step ρ) (ts us : List Token) (s : Step ρ) (b : Builder) : Prop :=
  ∀ u d i, Reaches grammar s b u d → Stalls grammar u d → d.ahead = (significant ts).drop i →
    gapBefore us i ≠ []

namespace StallsWithin

variable {s t recovery : Step ρ} {b m : Builder} {test : List Token → Bool}

theorem of_reaches (h : StallsWithin grammar ts us s b)
    (hr : ∀ {u : Step ρ} {d : Builder}, Reaches grammar t m u d → Reaches grammar s b u d) :
    StallsWithin grammar ts us t m :=
  fun u d i hreach => h u d i (hr hreach)

theorem done : StallsWithin grammar ts us .done b := by
  intro u d i hreach hstall
  cases hreach
  cases hstall

theorem take : StallsWithin grammar ts us .take b := by
  intro u d i hreach hstall
  cases hreach
  cases hstall

theorem report {message : String} : StallsWithin grammar ts us (.report message) b := by
  intro u d i hreach hstall
  cases hreach
  cases hstall

theorem look {choose : List Token → Step ρ}
    (h : StallsWithin grammar ts us (choose b.ahead) b) :
    StallsWithin grammar ts us (.look choose) b := by
  intro u d i hreach hstall
  cases hreach with
  | here => cases hstall
  | look hr => exact h u d i hr hstall

theorem andThen (hs : Runs grammar s b m) (h : StallsWithin grammar ts us s b)
    (h' : StallsWithin grammar ts us t m) : StallsWithin grammar ts us (.andThen s t) b := by
  intro u d i hreach hstall
  cases hreach with
  | here => cases hstall
  | first hr => exact h u d i hr hstall
  | second hs' hr =>
    obtain rfl := hs.unique hs'
    exact h' u d i hr hstall

theorem node {kind : NodeKind} (h : StallsWithin grammar ts us s b.opened) :
    StallsWithin grammar ts us (.node kind s) b := by
  intro u d i hreach hstall
  cases hreach with
  | here => cases hstall
  | node hr => exact h u d i hr hstall

theorem group (h : StallsWithin grammar ts us s b.opened) :
    StallsWithin grammar ts us (.group s) b := by
  intro u d i hreach hstall
  cases hreach with
  | here => cases hstall
  | group hr => exact h u d i hr hstall

theorem wrap {kind : NodeKind} (h : StallsWithin grammar ts us s b) :
    StallsWithin grammar ts us (.wrap kind s) b := by
  intro u d i hreach hstall
  cases hreach with
  | here => cases hstall
  | wrap hr => exact h u d i hr hstall

theorem call {rule : ρ} (h : StallsWithin grammar ts us (grammar rule) b) :
    StallsWithin grammar ts us (.call rule) b := by
  intro u d i hreach hstall
  cases hreach with
  | here => cases hstall
  | call hr => exact h u d i hr hstall

theorem insistMoved (hs : Runs grammar s b m) (hmoved : ¬ (m.taken = b.taken ∧ m.atEnd = false))
    (h : StallsWithin grammar ts us s b)
    (hgap : ∀ i, b.ahead ≠ [] → m.ahead = b.ahead → b.ahead = (significant ts).drop i →
      gapBefore us i ≠ []) : StallsWithin grammar ts us (.insist s recovery) b := by
  intro u d i hreach hstall
  cases hreach with
  | here =>
    cases hstall with
    | insist hs' hne hahead _ =>
      obtain rfl := hs.unique hs'
      exact hgap i hne hahead
  | insisted hr => exact h u d i hr hstall
  | recovery hs' hstuck _ =>
    obtain rfl := hs.unique hs'
    exact absurd hstuck hmoved

theorem insistStuck (hs : Runs grammar s b m) (hstuck : m.taken = b.taken ∧ m.atEnd = false)
    (h : StallsWithin grammar ts us s b) (h' : StallsWithin grammar ts us recovery m) :
    StallsWithin grammar ts us (.insist s recovery) b := by
  intro u d i hreach hstall
  cases hreach with
  | here =>
    cases hstall with
    | insist hs' _ _ hmoved =>
      obtain rfl := hs.unique hs'
      exact absurd hstuck.1 hmoved
  | insisted hr => exact h u d i hr hstall
  | recovery hs' _ hr =>
    obtain rfl := hs.unique hs'
    exact h' u d i hr hstall

theorem repeatStop (ht : test b.ahead = false) :
    StallsWithin grammar ts us (.repeatWhile test s) b := by
  intro u d i hreach hstall
  cases hreach with
  | here => cases hstall
  | turn ht' | nextTurn ht' => simp [ht] at ht'

theorem repeatTurn (hs : Runs grammar s b m) (h : StallsWithin grammar ts us s b)
    (h' : StallsWithin grammar ts us (.repeatWhile test s) m) :
    StallsWithin grammar ts us (.repeatWhile test s) b := by
  intro u d i hreach hstall
  cases hreach with
  | here => cases hstall
  | turn _ hr => exact h u d i hr hstall
  | nextTurn _ hs' hr =>
    obtain rfl := hs.unique hs'
    exact h' u d i hr hstall

theorem commaStop (ht : test b.ahead = false) :
    StallsWithin grammar ts us (.commaList test s) b := by
  intro u d i hreach hstall
  cases hreach with
  | here => cases hstall
  | element ht' | nextElement ht' => simp [ht] at ht'

theorem commaLast (hs : Runs grammar s b m) (hcomma : startsWith .comma m.ahead = false)
    (h : StallsWithin grammar ts us s b) : StallsWithin grammar ts us (.commaList test s) b := by
  intro u d i hreach hstall
  cases hreach with
  | here => cases hstall
  | element _ hr => exact h u d i hr hstall
  | nextElement _ hs' hcomma' =>
    obtain rfl := hs.unique hs'
    simp [hcomma] at hcomma'

theorem commaMore (hs : Runs grammar s b m) (h : StallsWithin grammar ts us s b)
    (h' : StallsWithin grammar ts us (.commaList test s) m.take) :
    StallsWithin grammar ts us (.commaList test s) b := by
  intro u d i hreach hstall
  cases hreach with
  | here => cases hstall
  | element _ hr => exact h u d i hr hstall
  | nextElement _ hs' _ hr =>
    obtain rfl := hs.unique hs'
    exact h' u d i hr hstall

end StallsWithin

namespace Runs

variable {s : Step ρ} {b b' c c' : Builder} {i j : Nat} {fresh fresh' : Bool}

theorem stands (h : Runs grammar s b b') (hb : ∃ i fresh, b.Stands ts i fresh) :
    ∃ i fresh, b'.Stands ts i fresh := by
  have kept {x y : Builder} (hx : ∃ i fresh, x.Stands ts i fresh)
      (hp : y.pending = x.pending) (ha : y.ahead = x.ahead) (hg : y.gaps = x.gaps)
      (hplace : y.place = x.place) : ∃ i fresh, y.Stands ts i fresh := by
    obtain ⟨i, fresh, hx⟩ := hx
    exact ⟨i, fresh, hx.same hp ha hg hplace⟩
  induction h with
  | done | repeatStop | commaStop => exact hb
  | take => exact Builder.stands_take hb
  | report => exact kept hb rfl rfl rfl rfl
  | look _ ih | call _ ih => exact ih hb
  | andThen _ _ ihs iht => exact iht (ihs hb)
  | wrap _ ih => exact kept (ih hb) rfl rfl rfl rfl
  | node _ ih | group _ ih => exact kept (ih (Builder.stands_opened hb)) rfl rfl rfl rfl
  | insistMoved _ _ ih | commaLast _ _ _ ih => exact ih hb
  | insistStuck _ _ _ ihs ihr => exact ihr (ihs hb)
  | repeatTurn _ _ _ ihs ihr => exact ihr (ihs hb)
  | commaMore _ _ _ _ ihs ihr => exact ihr (Builder.stands_take (ihs hb))

theorem taken_add_pending (h : Runs grammar s b b') (hb : b.Stands ts i fresh)
    (hb' : b'.Stands ts i fresh') :
    b'.taken + b'.pending.length = b.taken + b.pending.length := by
  have hcounts := h.counts
  simp only [Builder.togo, Builder.left, hb.ahead, hb.gaps, hb'.ahead, hb'.gaps,
    List.length_append] at hcounts
  omega

theorem took_gap (h : Runs grammar s b b') (hb : b.Stands ts i fresh) (hahead : b'.ahead = b.ahead)
    (hne : b.ahead ≠ []) (hmoved : ¬ (b'.taken = b.taken ∧ b'.atEnd = false)) :
    fresh = true ∧ gapBefore ts i ≠ [] ∧ b'.Stands ts i false := by
  obtain ⟨j, fresh', hb'⟩ := h.stands ⟨i, fresh, hb⟩
  obtain rfl := hb.index_eq (hahead.symm.trans hb'.ahead) hne
  have htaken : b'.taken ≠ b.taken := fun htaken =>
    hmoved ⟨htaken, by simpa [Builder.atEnd, hahead] using hne⟩
  have hfewer : b'.pending.length < b.pending.length := by
    have := h.taken_add_pending hb hb'
    have := h.counts
    have := h.togo_le
    omega
  rw [hb.pending, hb'.pending] at hfewer
  cases fresh with
  | false => simp at hfewer
  | true =>
    cases fresh' with
    | true => exact absurd hfewer (Nat.lt_irrefl _)
    | false => exact ⟨rfl, List.ne_nil_of_length_pos (by simpa using hfewer), hb'⟩

theorem ahead_of_stuck (h : Runs grammar s b b') (hstuck : b'.taken = b.taken ∧ b'.atEnd = false) :
    b'.ahead = b.ahead ∧ b.ahead ≠ [] := by
  have htogo := h.taken_eq_iff.1 hstuck.1
  rcases h.moves_or_stays with hlt | ⟨_, hahead⟩
  · omega
  · refine ⟨hahead, ?_⟩
    rw [← hahead]
    simpa [Builder.atEnd] using hstuck.2

theorem stays_of_stuck (hsame : significant ts = significant us) (h : Runs grammar s c c')
    (hbc : b.Abreast ts us c) (hbc' : b'.Abreast ts us c')
    (hstuck : c'.taken = c.taken ∧ c'.atEnd = false) : b'.ahead = b.ahead ∧ b.ahead ≠ [] := by
  rw [← hbc.ahead hsame, ← hbc'.ahead hsame]
  exact h.ahead_of_stuck hstuck

theorem stuck_of_moved (hsame : significant ts = significant us) {recovery : Step ρ}
    (h : Runs grammar s b b') (h' : Runs grammar s c c') (hbc : b.Abreast ts us c)
    (hbc' : b'.Abreast ts us c') (hgap : StallsWithin grammar ts us (.insist s recovery) b)
    (hstuck : c'.taken = c.taken ∧ c'.atEnd = false) : b'.taken = b.taken ∧ b'.atEnd = false := by
  obtain ⟨hstay, hne⟩ := h'.stays_of_stuck hsame hbc hbc' hstuck
  by_contra hmoved
  obtain ⟨i, fresh, hb, hc⟩ := hbc.stands
  obtain ⟨j, fresh', hb', hc'⟩ := hbc'.stands
  obtain rfl := hb.index_eq (hstay.symm.trans hb'.ahead) hne
  obtain ⟨rfl, htrivia, hattached⟩ := h.took_gap hb hstay hne hmoved
  have hstall : Stalls grammar (.insist s recovery) b := .insist h hne hstay fun htaken =>
    hmoved ⟨htaken, by simpa [Builder.atEnd, hstay] using hne⟩
  have htrivia' : gapBefore us j ≠ [] := hgap _ b j .here hstall hb.ahead
  cases fresh' with
  | true => exact htrivia (hb'.pending.symm.trans hattached.pending)
  | false =>
    have hsum := h'.taken_add_pending hc hc'
    rw [hstuck.1, hc.pending, hc'.pending] at hsum
    exact htrivia' (by simpa using hsum)

theorem abreast (hsame : significant ts = significant us) (h : Runs grammar s b b')
    (h' : Runs grammar s c c') (hbc : b.Abreast ts us c)
    (hts : StallsWithin grammar ts us s b) (hus : StallsWithin grammar us ts s c) :
    b'.Abreast ts us c' := by
  induction h generalizing c c' with
  | done => cases h'; exact hbc
  | take => cases h'; exact hbc.take hsame
  | report message => cases h'; exact hbc.report message
  | @look choose b b' _ ih =>
    have hahead := hbc.ahead hsame
    cases h' with
    | look h' =>
      exact ih (hahead ▸ h') hbc (hts.of_reaches .look) (hahead ▸ hus.of_reaches .look)
  | andThen hs _ ihs iht =>
    cases h' with
    | andThen hs' ht' =>
      have hm := ihs hs' hbc (hts.of_reaches .first) (hus.of_reaches .first)
      exact iht ht' hm (hts.of_reaches (.second hs)) (hus.of_reaches (.second hs'))
  | node _ ih =>
    cases h' with
    | node h' =>
      exact (ih h' (hbc.attach.built _ _) (hts.of_reaches .node) (hus.of_reaches .node)).built _ _
  | group _ ih =>
    cases h' with
    | group h' =>
      exact (ih h' (hbc.attach.built _ _) (hts.of_reaches .group) (hus.of_reaches .group)).built _ _
  | wrap _ ih =>
    cases h' with
    | wrap h' => exact (ih h' hbc (hts.of_reaches .wrap) (hus.of_reaches .wrap)).built _ _
  | insistMoved hs hmoved ih =>
    cases h' with
    | insistMoved hs' _ => exact ih hs' hbc (hts.of_reaches .insisted) (hus.of_reaches .insisted)
    | insistStuck hs' hstuck _ =>
      have htried := ih hs' hbc (hts.of_reaches .insisted) (hus.of_reaches .insisted)
      exact absurd (stuck_of_moved hsame hs hs' hbc htried hts hstuck) hmoved
  | insistStuck hs hstuck _ ihs ihr =>
    cases h' with
    | insistMoved hs' hmoved =>
      have htried := ihs hs' hbc (hts.of_reaches .insisted) (hus.of_reaches .insisted)
      exact absurd (stuck_of_moved hsame.symm hs' hs hbc.symm htried.symm hus hstuck) hmoved
    | insistStuck hs' hstuck' hr' =>
      have htried := ihs hs' hbc (hts.of_reaches .insisted) (hus.of_reaches .insisted)
      exact ihr hr' htried (hts.of_reaches (.recovery hs hstuck))
        (hus.of_reaches (.recovery hs' hstuck'))
  | repeatStop ht =>
    cases h' with
    | repeatStop => exact hbc
    | repeatTurn ht' => simp [hbc.ahead hsame, ht] at ht'
  | repeatTurn ht hs _ ihs ihr =>
    cases h' with
    | repeatStop ht' => simp [hbc.ahead hsame, ht] at ht'
    | repeatTurn ht' hs' hr' =>
      have hm := ihs hs' hbc (hts.of_reaches (.turn ht)) (hus.of_reaches (.turn ht'))
      exact ihr hr' hm (hts.of_reaches (.nextTurn ht hs)) (hus.of_reaches (.nextTurn ht' hs'))
  | commaStop ht =>
    cases h' with
    | commaStop => exact hbc
    | commaLast ht' | commaMore ht' => simp [hbc.ahead hsame, ht] at ht'
  | commaLast ht _ hcomma ih =>
    cases h' with
    | commaStop ht' => simp [hbc.ahead hsame, ht] at ht'
    | commaLast ht' hs' _ =>
      exact ih hs' hbc (hts.of_reaches (.element ht)) (hus.of_reaches (.element ht'))
    | commaMore ht' hs' hcomma' _ =>
      have hm := ih hs' hbc (hts.of_reaches (.element ht)) (hus.of_reaches (.element ht'))
      simp [hm.ahead hsame, hcomma] at hcomma'
  | commaMore ht hs hcomma _ ihs ihr =>
    cases h' with
    | commaStop ht' => simp [hbc.ahead hsame, ht] at ht'
    | commaLast ht' hs' hcomma' =>
      have hm := ihs hs' hbc (hts.of_reaches (.element ht)) (hus.of_reaches (.element ht'))
      simp [hm.ahead hsame, hcomma] at hcomma'
    | commaMore ht' hs' hcomma' hr' =>
      have hm := ihs hs' hbc (hts.of_reaches (.element ht)) (hus.of_reaches (.element ht'))
      exact ihr hr' (hm.take hsame) (hts.of_reaches (.nextElement ht hs hcomma))
        (hus.of_reaches (.nextElement ht' hs' hcomma'))
  | call _ ih =>
    cases h' with
    | call h' => exact ih h' hbc (hts.of_reaches .call) (hus.of_reaches .call)

end Runs

theorem Reaches.stands {s u : Step ρ} {b d : Builder} (h : Reaches grammar s b u d)
    (hb : ∃ i fresh, b.Stands ts i fresh) : ∃ i fresh, d.Stands ts i fresh := by
  induction h with
  | here => exact hb
  | look _ ih | first _ ih | wrap _ ih | insisted _ ih | turn _ _ ih | element _ _ ih
  | call _ ih => exact ih hb
  | second hs _ ih | recovery hs _ _ ih | nextTurn _ hs _ ih => exact ih (hs.stands hb)
  | node _ ih | group _ ih => exact ih (Builder.stands_opened hb)
  | nextElement _ hs _ _ ih => exact ih (Builder.stands_take (hs.stands hb))

end Step

namespace Parse

/-- Reading `ts` has a rule that must move take the trivia in front of the significant token `i` and
nothing else. -/
def StallsAt (ts : List Token) (i : Nat) : Prop :=
  ∃ s b, Step.Reaches Grammar.body Grammar.file (.ofTokens ts) s b ∧
    Step.Stalls Grammar.body s b ∧ b.ahead = (significant ts).drop i

theorem StallsAt.gap {ts : List Token} {i : Nat} (h : StallsAt ts i) : gapBefore ts i ≠ [] := by
  obtain ⟨s, b, hreach, hstall, hi⟩ := h
  obtain ⟨j, fresh, hb⟩ := hreach.stands ⟨0, true, Builder.stands_ofTokens ts⟩
  cases hstall with
  | insist hbody hne hahead hmoved =>
    obtain rfl := hb.index_eq hi hne
    exact (hbody.took_gap hb hahead hne fun hstuck => hmoved hstuck.1).2.1

theorem errors_correspond {ts us : List Token} (hsame : significant ts = significant us)
    (hts : ∀ i, StallsAt ts i → gapBefore us i ≠ [])
    (hus : ∀ i, StallsAt us i → gapBefore ts i ≠ []) :
    List.Forall₂ (ParseError.Corresponds ts us) (ofTokens ts).errors (ofTokens us).errors := by
  have hread := (runs_file ts).abreast hsame (runs_file us) (Builder.abreast_ofTokens ts us)
    (fun s b i hreach hstall hahead => hts i ⟨s, b, hreach, hstall, hahead⟩)
    (fun s b i hreach hstall hahead => hus i ⟨s, b, hreach, hstall, hahead⟩)
  rw [ofTokens_eq, ofTokens_eq]
  exact List.forall₂_reverse_iff.2 hread.errors

end Parse

theorem parse_errors_correspond_of_same_gaps {text other : String}
    (hsame : significant (Token.scan text) = significant (Token.scan other))
    (hgaps : ∀ i, gapBefore (Token.scan text) i = [] ↔ gapBefore (Token.scan other) i = []) :
    List.Forall₂ (ParseError.Corresponds (Token.scan text) (Token.scan other))
      (parse text).errors (parse other).errors :=
  Parse.errors_correspond hsame (fun i h hgap => h.gap ((hgaps i).2 hgap))
    fun i h hgap => h.gap ((hgaps i).1 hgap)

end CrossReference.Source
