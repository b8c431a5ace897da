import CrossReference.Proofs.Reading.Lossless

/-!
Reading goes on from any place as if the rest were a file of its own: only trivia, tokens ahead and
gaps decide what a run does, and whatever closes its own nodes leaves the trees below alone.
-/

namespace CrossReference.Source

def ParseError.shift (n : Nat) (e : ParseError) : ParseError := { e with offset := n + e.offset }

section Trivia

variable {gap ts : List Token} {t : Token}

theorem leadingTrivia_eq_self (h : ∀ g ∈ gap, g.isTrivia) : leadingTrivia gap = gap := by
  induction gap with
  | nil => rfl
  | cons g gap ih =>
    rw [leadingTrivia, List.takeWhile_cons_of_pos (h g List.mem_cons_self)]
    exact congrArg _ (ih fun g' hg' => h g' (List.mem_cons_of_mem _ hg'))

theorem significant_eq_nil (h : ∀ g ∈ gap, g.isTrivia) : significant gap = [] := by
  simpa [significant] using h

theorem gapsOf_eq_nil (h : ∀ g ∈ gap, g.isTrivia) : gapsOf gap = [] := by
  induction gap with
  | nil => rfl
  | cons g gap ih =>
    rw [gapsOf, if_pos (h g List.mem_cons_self)]
    exact ih fun g' hg' => h g' (List.mem_cons_of_mem _ hg')

theorem leadingTrivia_gap (h : ∀ g ∈ gap, g.isTrivia) (ht : t.isTrivia = false) :
    leadingTrivia (gap ++ t :: ts) = gap := by
  rw [leadingTrivia, List.takeWhile_append_of_pos h]
  simp [ht]

theorem significant_gap (h : ∀ g ∈ gap, g.isTrivia) (ht : t.isTrivia = false) :
    significant (gap ++ t :: ts) = t :: significant ts := by
  have hgap := significant_eq_nil h
  simp only [significant, List.filter_append] at hgap ⊢
  simp [hgap, ht]

theorem gapsOf_gap (h : ∀ g ∈ gap, g.isTrivia) (ht : t.isTrivia = false) :
    gapsOf (gap ++ t :: ts) = leadingTrivia ts :: gapsOf ts := by
  induction gap with
  | nil => simp [gapsOf, ht]
  | cons g gap ih =>
    rw [List.cons_append, gapsOf, if_pos (h g List.mem_cons_self)]
    exact ih fun g' hg' => h g' (List.mem_cons_of_mem _ hg')

theorem trivia_or_gap (ts : List Token) :
    (∀ t ∈ ts, t.isTrivia) ∨
    ∃ gap t rest, ts = gap ++ t :: rest ∧ (∀ g ∈ gap, g.isTrivia) ∧ t.isTrivia = false := by
  induction ts with
  | nil => exact .inl (by simp)
  | cons t ts ih =>
    cases ht : t.isTrivia with
    | false => exact .inr ⟨[], t, ts, rfl, by simp, ht⟩
    | true =>
      rcases ih with h | ⟨gap, u, rest, rfl, hgap, hu⟩
      · exact .inl (List.forall_mem_cons.2 ⟨ht, h⟩)
      · exact .inr ⟨t :: gap, u, rest, rfl, List.forall_mem_cons.2 ⟨ht, hgap⟩, hu⟩

end Trivia

namespace Builder

def lift (n k : Nat) (trees : List Tree) (errors : List ParseError) (b : Builder) : Builder :=
  { b with
    place := n + b.place
    taken := k + b.taken
    built := b.built ++ trees
    errors := b.errors.map (.shift n) ++ errors }

variable {n k : Nat} {trees : List Tree} {errors : List ParseError}

theorem attach_lift (b : Builder) :
    (b.lift n k trees errors).attach = b.attach.lift n k trees errors := by
  simp [attach, lift, Nat.add_assoc]

theorem take_lift (b : Builder) :
    (b.lift n k trees errors).take = b.take.lift n k trees errors := by
  cases h : b.ahead with
  | nil =>
    have hl : (b.lift n k trees errors).ahead = [] := h
    rw [take_of_nil h, take_of_nil hl, attach_lift]
  | cons t ts =>
    have hl : (b.lift n k trees errors).ahead = t :: ts := h
    rw [take_of_cons h, take_of_cons hl]
    simp [attach, lift, Nat.add_assoc]

theorem report_lift (message : String) (b : Builder) :
    (b.lift n k trees errors).report message = (b.report message).lift n k trees errors := by
  simp [report, lift, ParseError.shift]

theorem opened_lift (trees : List Tree) (b : Builder) :
    (b.lift n k trees errors).opened = b.opened.lift n k [] errors := by
  simp [opened, attach, lift, Nat.add_assoc]

theorem closeNode_lift (kind : NodeKind) (b inner : Builder) :
    (b.lift n k trees errors).closeNode kind (inner.lift n k [] errors) =
      (b.closeNode kind inner).lift n k trees errors := by
  simp [closeNode, attach, lift]

theorem closeGroup_lift (b inner : Builder) :
    (b.lift n k trees errors).closeGroup (inner.lift n k [] errors) =
      (b.closeGroup inner).lift n k trees errors := by
  simp [closeGroup, attach, lift]

theorem wrap_lift (kind : NodeKind) (b : Builder) :
    (b.lift n k [] errors).wrap kind = (b.wrap kind).lift n k [] errors := by
  simp [wrap, lift]

structure Reads (b : Builder) (ts : List Token) : Prop where
  pending : b.pending = leadingTrivia ts
  ahead : b.ahead = significant ts
  gaps : b.gaps = gapsOf ts

theorem reads_ofTokens (ts : List Token) : (ofTokens ts).Reads ts := ⟨rfl, rfl, rfl⟩

theorem Reads.left {b : Builder} {ts : List Token} (h : b.Reads ts) : b.left = ts := by
  rw [Builder.left, h.pending, h.ahead, h.gaps, leadingTrivia_append_weave]

section Gap

variable {b : Builder} {gap ts : List Token} {t : Token} (hgap : ∀ g ∈ gap, g.isTrivia)
include hgap

theorem Reads.attach_trivia (h : b.Reads gap) : b.attach.Reads [] :=
  ⟨rfl, h.ahead.trans (significant_eq_nil hgap), h.gaps.trans (gapsOf_eq_nil hgap)⟩

theorem Reads.attach (ht : t.isTrivia = false) (h : b.Reads (gap ++ t :: ts)) :
    b.attach.Reads (t :: ts) := by
  refine ⟨?_, ?_, ?_⟩
  · simp [Builder.attach, leadingTrivia, ht]
  · exact h.ahead.trans (by rw [significant_gap hgap ht]; simp [significant, ht])
  · exact h.gaps.trans (by rw [gapsOf_gap hgap ht]; simp [gapsOf, ht])

theorem Reads.take (ht : t.isTrivia = false) (h : b.Reads (gap ++ t :: ts)) :
    b.take.Reads ts := by
  have ha : b.ahead = t :: significant ts := h.ahead.trans (significant_gap hgap ht)
  have hg : b.gaps = leadingTrivia ts :: gapsOf ts := h.gaps.trans (gapsOf_gap hgap ht)
  rw [take_of_cons ha]
  refine ⟨?_, rfl, ?_⟩ <;> simp [hg]

theorem Reads.built_take (ht : t.isTrivia = false) (h : b.Reads (gap ++ t :: ts)) :
    b.take.built = .leaf t :: ((gap.map .leaf).reverse ++ b.built) := by
  have ha : b.ahead = t :: significant ts := h.ahead.trans (significant_gap hgap ht)
  have hp : b.pending = gap := h.pending.trans (leadingTrivia_gap hgap ht)
  rw [take_of_cons ha]
  simp [Builder.attach, hp]

end Gap

/-- What is pending, ahead and between belongs to one list of tokens. -/
def Aligned (b : Builder) : Prop := b.Reads b.left

theorem Reads.aligned {b : Builder} {ts : List Token} (h : b.Reads ts) : b.Aligned := by
  rw [Aligned, h.left]
  exact h

theorem Aligned.pending_trivia {b : Builder} (h : b.Aligned) : ∀ g ∈ b.pending, g.isTrivia := by
  intro g hg
  rw [h.pending] at hg
  exact List.all_eq_true.1 List.all_takeWhile g hg

theorem Aligned.same {b c : Builder} (h : b.Aligned) (hp : c.pending = b.pending)
    (ha : c.ahead = b.ahead) (hg : c.gaps = b.gaps) : c.Aligned := by
  have hc : c.Reads b.left := ⟨hp.trans h.pending, ha.trans h.ahead, hg.trans h.gaps⟩
  exact hc.aligned

theorem Aligned.attach {b : Builder} (h : b.Aligned) : b.attach.Aligned := by
  rcases trivia_or_gap b.left with hgap | ⟨gap, t, rest, hl, hgap, ht⟩
  · exact (h.attach_trivia hgap).aligned
  · rw [Aligned, hl] at h
    exact (h.attach hgap ht).aligned

theorem Aligned.take {b : Builder} (h : b.Aligned) : b.take.Aligned := by
  rcases trivia_or_gap b.left with hgap | ⟨gap, t, rest, hl, hgap, ht⟩
  · rw [take_of_nil (h.ahead.trans (significant_eq_nil hgap))]
    exact h.attach
  · rw [Aligned, hl] at h
    exact (h.take hgap ht).aligned

theorem errors_take (b : Builder) : b.take.errors = b.errors := by
  cases h : b.ahead with
  | nil => rw [take_of_nil h]; rfl
  | cons t ts => rw [take_of_cons h]

def extent (b : Builder) : Nat := b.place + byteSize (weave b.ahead b.gaps)

theorem extent_take (b : Builder) : b.take.extent = b.extent := by
  cases h : b.ahead with
  | nil => rw [take_of_nil h]; rfl
  | cons t ts =>
    rw [extent, extent, h, weave_cons, take_of_cons h]
    simp
    omega

end Builder

namespace Step

variable {ρ : Type} {grammar : ρ → Step ρ}

namespace Runs

theorem aligned {s : Step ρ} {b b' : Builder} (h : Runs grammar s b b') (hb : b.Aligned) :
    b'.Aligned := by
  induction h with
  | done | repeatStop | commaStop => exact hb
  | report => exact hb.same rfl rfl rfl
  | take b => exact hb.take
  | look _ ih | call _ ih => exact ih hb
  | andThen _ _ ihs iht => exact iht (ihs hb)
  | wrap _ ih => exact (ih hb).same rfl rfl rfl
  | node _ ih | group _ ih => exact (ih (hb.attach.same rfl rfl rfl)).same rfl rfl rfl
  | insistMoved _ _ ih | commaLast _ _ _ ih => exact ih hb
  | insistStuck _ _ _ ihs ihr => exact ihr (ihs hb)
  | repeatTurn _ _ _ ihs ihr => exact ihr (ihs hb)
  | commaMore _ _ _ _ ihs ihr => exact ihr (ihs hb).take

theorem extent_eq {s : Step ρ} {b b' : Builder} (h : Runs grammar s b b') :
    b'.extent = b.extent := by
  induction h with
  | done | repeatStop | commaStop | report => rfl
  | take b => exact b.extent_take
  | look _ ih | call _ ih | wrap _ ih => exact ih
  | andThen _ _ ihs iht => rw [iht, ihs]
  | node _ ih | group _ ih => exact ih
  | insistMoved _ _ ih | commaLast _ _ _ ih => exact ih
  | insistStuck _ _ _ ihs ihr => rw [ihr, ihs]
  | repeatTurn _ _ _ ihs ihr => rw [ihr, ihs]
  | commaMore _ _ _ _ ihs ihr => rw [ihr, Builder.extent_take, ihs]

theorem errors_suffix {s : Step ρ} {b b' : Builder} (h : Runs grammar s b b') :
    b.errors <:+ b'.errors := by
  induction h with
  | done | repeatStop | commaStop => exact List.suffix_refl _
  | report => exact List.suffix_cons _ _
  | take b => exact b.errors_take ▸ List.suffix_refl _
  | look _ ih | call _ ih | wrap _ ih => exact ih
  | andThen _ _ ihs iht => exact ihs.trans iht
  | node _ ih | group _ ih => exact ih
  | insistMoved _ _ ih | commaLast _ _ _ ih => exact ih
  | insistStuck _ _ _ ihs ihr => exact ihs.trans ihr
  | repeatTurn _ _ _ ihs ihr => exact ihs.trans ihr
  | @commaMore _ _ _ m _ _ _ _ _ ihs ihr => exact ihs.trans (m.errors_take ▸ ihr)

end Runs

/-- Steps that never reach back into the open list; the rules they call are among `closed`. -/
def Seals (closed : ρ → Prop) : Step ρ → Prop
  | .done | .take | .report _ | .node _ _ | .group _ => True
  | .look choose => ∀ ts, (choose ts).Seals closed
  | .andThen first second => first.Seals closed ∧ second.Seals closed
  | .wrap _ _ => False
  | .insist body recovery => body.Seals closed ∧ recovery.Seals closed
  | .repeatWhile _ body | .commaList _ body => body.Seals closed
  | .call rule => closed rule

theorem Runs.lift {closed : ρ → Prop} (hclosed : ∀ rule, closed rule → (grammar rule).Seals closed)
    {s : Step ρ} {b b' : Builder} (h : Runs grammar s b b') (n k : Nat) (trees : List Tree)
    (errors : List ParseError) (hs : trees = [] ∨ s.Seals closed) :
    Runs grammar s (b.lift n k trees errors) (b'.lift n k trees errors) := by
  induction h generalizing trees with
  | done => exact .done _
  | take b => exact b.take_lift ▸ .take _
  | report message b => exact b.report_lift message ▸ .report message _
  | look _ ih => exact .look (ih _ (hs.imp_right fun h => h _))
  | andThen _ _ ihs iht =>
    exact .andThen (ihs _ (hs.imp_right And.left)) (iht _ (hs.imp_right And.right))
  | @node kind s b inner _ ih =>
    have hinner := ih [] (.inl rfl)
    rw [← Builder.opened_lift trees] at hinner
    exact Builder.closeNode_lift kind b inner ▸ .node hinner
  | @group s b inner _ ih =>
    have hinner := ih [] (.inl rfl)
    rw [← Builder.opened_lift trees] at hinner
    exact Builder.closeGroup_lift b inner ▸ .group hinner
  | @wrap kind s b b' _ ih =>
    obtain rfl : trees = [] := hs.resolve_right id
    exact b'.wrap_lift kind ▸ .wrap (ih [] (.inl rfl))
  | insistMoved _ hm ih =>
    refine .insistMoved (ih _ (hs.imp_right And.left)) fun hn => hm ⟨?_, hn.2⟩
    exact Nat.add_left_cancel hn.1
  | insistStuck _ hn _ ihs ihr =>
    refine .insistStuck (ihs _ (hs.imp_right And.left)) ⟨?_, hn.2⟩
      (ihr _ (hs.imp_right And.right))
    exact congrArg (k + ·) hn.1
  | repeatStop ht => exact .repeatStop ht
  | repeatTurn ht _ _ ihs ihr => exact .repeatTurn ht (ihs _ hs) (ihr _ hs)
  | commaStop ht => exact .commaStop ht
  | commaLast ht _ hc ih => exact .commaLast ht (ih _ hs) hc
  | @commaMore test s b m b' ht _ hc _ ihs ihr =>
    have hrest := ihr _ hs
    rw [← m.take_lift] at hrest
    exact .commaMore ht (ihs _ hs) hc hrest
  | @call rule b b' _ ih => exact .call (ih _ (hs.imp_right (hclosed rule)))

end Step

namespace Grammar

open Step

def turn : Act := .insist (.call .item) (skipGroup "expected a declaration")

theorem file_eq : file = .repeatWhile (fun ts => !ts.isEmpty) turn := rfl

def IsItem : Rule → Prop
  | .item | .importDirective | .directive | .metadata | .unsupportedItem | .classDecl
  | .declaration _ => True
  | _ => False

theorem item_calls :
    ∃ choose, item = .look choose ∧ ∀ ts, ∃ rule, choose ts = .call rule ∧ IsItem rule := by
  refine ⟨_, rfl, fun ts => ?_⟩
  split
  · exact ⟨_, rfl, trivial⟩
  · split
    · exact ⟨_, rfl, trivial⟩
    · split
      · exact ⟨_, rfl, trivial⟩
      · split
        · exact ⟨_, rfl, trivial⟩
        · split <;> exact ⟨_, rfl, trivial⟩

theorem seals_body (rule : Rule) (h : IsItem rule) : (body rule).Seals IsItem := by
  cases rule with
  | item =>
    obtain ⟨choose, hitem, hcalls⟩ := item_calls
    rw [body, hitem]
    intro ts
    obtain ⟨rule, hrule, hmade⟩ := hcalls ts
    rw [hrule]
    exact hmade
  | importDirective | directive | metadata | unsupportedItem | classDecl => trivial
  | declaration => trivial
  | _ => exact absurd h id

theorem seals_turn : turn.Seals IsItem := ⟨trivial, trivial, trivial⟩

theorem seals_file : file.Seals IsItem := seals_turn

end Grammar

namespace Parse

open Step

theorem eq_lift {ts : List Token} {m : Builder} {s : Step Rule}
    (h : Runs Grammar.body s (.ofTokens ts) m) :
    m = (Builder.ofTokens m.left).lift (byteSize m.seen) m.taken m.built m.errors := by
  have hm : m.Aligned := h.aligned (Builder.reads_ofTokens ts).aligned
  have hplace : m.place = byteSize m.seen + byteSize m.pending := by
    have hkept : m.seen ++ m.left = ts := h.conserves.trans (Builder.left_ofTokens ts)
    have hextent : m.extent = byteSize ts := by
      rw [h.extent_eq, ← congrArg byteSize (leadingTrivia_append_weave ts), byteSize_append]
      rfl
    have hsize := congrArg byteSize hkept
    rw [Builder.left] at hsize
    rw [Builder.extent] at hextent
    simp only [byteSize_append] at hsize
    omega
  obtain ⟨hp, ha, hg⟩ := hm
  simp [Builder.lift, Builder.ofTokens, ← hp, ← ha, ← hg, ← hplace]

theorem ofTokens_of_turn {ts : List Token} {m : Builder} (hts : significant ts ≠ [])
    (h : Runs Grammar.body Grammar.turn (.ofTokens ts) m) :
    (ofTokens ts).items = m.built.reverse ++ (ofTokens m.left).items ∧
    (ofTokens ts).errors =
      m.errors.reverse ++ (ofTokens m.left).errors.map (.shift (byteSize m.seen)) := by
  have hrest := (runs_file m.left).lift Grammar.seals_body (byteSize m.seen) m.taken m.built
    m.errors (.inr Grammar.seals_file)
  rw [← eq_lift h] at hrest
  have hahead : (!(Builder.ofTokens ts).ahead.isEmpty) = true := by
    simpa [Builder.ofTokens] using hts
  have hread := (runs_file ts).unique (.repeatTurn hahead h hrest)
  rw [ofTokens_eq, ofTokens_eq, hread, Builder.attach_lift]
  simp [Builder.lift]

end Parse

end CrossReference.Source
