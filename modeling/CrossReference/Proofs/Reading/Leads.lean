import CrossReference.Proofs.Reading.Header

/-!
What a step makes of given tokens: `Leads s xs ts ys us` says that from the trees `xs` in the open
list, with `ts` to read, the step goes to the trees `ys`, with `us` left to read, and reports
nothing. One rule for each form of step puts the runs on a given text together.
-/

namespace CrossReference.Source

open Lookahead

namespace Builder

structure At (b : Builder) (xs : List Tree) (ts : List Token) : Prop where
  reads : b.Reads ts
  trees : b.built.reverse = xs

section Gap

variable {b : Builder} {xs : List Tree} {gap ts : List Token} {t : Token}
  (hgap : ∀ g ∈ gap, g.isTrivia) (ht : t.isTrivia = false)
include hgap ht

theorem At.take (h : b.At xs (gap ++ t :: ts)) :
    b.take.At (xs ++ gap.map .leaf ++ [.leaf t]) ts := by
  refine ⟨h.reads.take hgap ht, ?_⟩
  rw [h.reads.built_take hgap ht, ← h.trees]
  simp

theorem At.opened (h : b.At xs (gap ++ t :: ts)) : b.opened.At [] (t :: ts) :=
  ⟨h.reads.opened hgap ht, rfl⟩

theorem At.attach_trees (h : b.At xs (gap ++ t :: ts)) :
    b.attach.built.reverse = xs ++ gap.map .leaf := by
  have hp : b.pending = gap := h.reads.pending.trans (leadingTrivia_gap hgap ht)
  rw [← h.trees]
  simp [Builder.attach, hp]

end Gap

end Builder

namespace Step

variable {ρ : Type} {grammar : ρ → Step ρ}

def Leads (grammar : ρ → Step ρ) (s : Step ρ) (xs : List Tree) (ts : List Token) (ys : List Tree)
    (us : List Token) : Prop :=
  ∀ b : Builder, b.At xs ts → ∃ z, Runs grammar s b z ∧ z.At ys us ∧ z.errors = b.errors

namespace Leads

variable {s first second recovery : Step ρ} {xs ys zs : List Tree} {ts us vs : List Token}
  {kind : NodeKind} {test : List Token → Bool} {t : Token}

theorem done : Leads grammar .done xs ts xs ts := fun b hb => ⟨b, .done b, hb, rfl⟩

theorem look {choose : List Token → Step ρ}
    (h : Leads grammar (choose (significant ts)) xs ts ys us) :
    Leads grammar (.look choose) xs ts ys us := by
  intro b hb
  obtain ⟨z, hrun, hz⟩ := h b hb
  rw [← hb.reads.ahead] at hrun
  exact ⟨z, .look hrun, hz⟩

theorem pass {choose : List Token → Step ρ} (h : choose (significant ts) = .done) :
    Leads grammar (.look choose) xs ts xs ts := by
  refine .look ?_
  rw [h]
  exact .done

theorem skip (h : test (significant ts) = false) : Leads grammar (given test s) xs ts xs ts :=
  .pass (by simp [h])

theorem enter (ht : test (significant ts) = true) (h : Leads grammar s xs ts ys us) :
    Leads grammar (given test s) xs ts ys us :=
  .look (by rwa [if_pos ht])

theorem andThen (hfirst : Leads grammar first xs ts ys us)
    (hsecond : Leads grammar second ys us zs vs) :
    Leads grammar (.andThen first second) xs ts zs vs := by
  intro b hb
  obtain ⟨m, hrun, hm, hquiet⟩ := hfirst b hb
  obtain ⟨z, hrun', hz, hquiet'⟩ := hsecond m hm
  exact ⟨z, .andThen hrun hrun', hz, hquiet'.trans hquiet⟩

theorem wrap (h : Leads grammar s xs ts ys us) :
    Leads grammar (.wrap kind s) xs ts [.node kind ys] us := by
  intro b hb
  obtain ⟨z, hrun, hz, hquiet⟩ := h b hb
  refine ⟨_, .wrap hrun, ⟨⟨hz.reads.pending, hz.reads.ahead, hz.reads.gaps⟩, ?_⟩, hquiet⟩
  simp [Builder.wrap, hz.trees]

theorem call {rule : ρ} (h : Leads grammar (grammar rule) xs ts ys us) :
    Leads grammar (.call rule) xs ts ys us := by
  intro b hb
  obtain ⟨z, hrun, hz⟩ := h b hb
  exact ⟨z, .call hrun, hz⟩

theorem insist (h : Leads grammar s xs ts ys us) (hmoved : us.length ≠ ts.length) :
    Leads grammar (.insist s recovery) xs ts ys us := by
  intro b hb
  obtain ⟨z, hrun, hz, hquiet⟩ := h b hb
  refine ⟨z, .insistMoved hrun fun hstuck => hmoved ?_, hz, hquiet⟩
  have htogo := hrun.taken_eq_iff.1 hstuck.1
  rwa [Builder.togo, Builder.togo, hz.reads.left, hb.reads.left] at htogo

theorem repeatStop (h : test (significant ts) = false) :
    Leads grammar (.repeatWhile test s) xs ts xs ts := by
  intro b hb
  rw [← hb.reads.ahead] at h
  exact ⟨b, .repeatStop h, hb, rfl⟩

theorem repeatTurn (ht : test (significant ts) = true) (hturn : Leads grammar s xs ts ys us)
    (hrest : Leads grammar (.repeatWhile test s) ys us zs vs) :
    Leads grammar (.repeatWhile test s) xs ts zs vs := by
  intro b hb
  rw [← hb.reads.ahead] at ht
  obtain ⟨m, hrun, hm, hquiet⟩ := hturn b hb
  obtain ⟨z, hrun', hz, hquiet'⟩ := hrest m hm
  exact ⟨z, .repeatTurn ht hrun hrun', hz, hquiet'.trans hquiet⟩

theorem commaStop (h : test (significant ts) = false) :
    Leads grammar (.commaList test s) xs ts xs ts := by
  intro b hb
  rw [← hb.reads.ahead] at h
  exact ⟨b, .commaStop h, hb, rfl⟩

theorem commaLast (ht : test (significant ts) = true) (hturn : Leads grammar s xs ts ys us)
    (hlast : startsWith .comma (significant us) = false) :
    Leads grammar (.commaList test s) xs ts ys us := by
  intro b hb
  rw [← hb.reads.ahead] at ht
  obtain ⟨z, hrun, hz, hquiet⟩ := hturn b hb
  rw [← hz.reads.ahead] at hlast
  exact ⟨z, .commaLast ht hrun hlast, hz, hquiet⟩

theorem commaMore {comma : Token} (ht : test (significant ts) = true)
    (hturn : Leads grammar s xs ts ys (comma :: us)) (hcomma : comma.kind = .comma)
    (hrest : Leads grammar (.commaList test s) (ys ++ [.leaf comma]) us zs vs) :
    Leads grammar (.commaList test s) xs ts zs vs := by
  have hsig : comma.isTrivia = false := by simp [Token.isTrivia, hcomma, TokenKind.isTrivia]
  intro b hb
  rw [← hb.reads.ahead] at ht
  obtain ⟨m, hrun, hm, hquiet⟩ := hturn b hb
  have hahead : startsWith .comma m.ahead = true := by
    rw [hm.reads.ahead]
    simp [significant, hsig, startsWith, kind?, hcomma]
  have htake : m.take.At (ys ++ [.leaf comma]) us := by
    have hm : m.At ys ([] ++ comma :: us) := hm
    simpa using hm.take (by simp) hsig
  obtain ⟨z, hrun', hz, hquiet'⟩ := hrest _ htake
  exact ⟨z, .commaMore ht hrun hahead hrun', hz, (hquiet'.trans m.errors_take).trans hquiet⟩

section Gap

variable {gap : List Token} (hgap : ∀ g ∈ gap, g.isTrivia) (ht : t.isTrivia = false)
include hgap ht

theorem take_gap :
    Leads grammar .take xs (gap ++ t :: ts) (xs ++ gap.map .leaf ++ [.leaf t]) ts :=
  fun b hb => ⟨b.take, .take b, hb.take hgap ht, b.errors_take⟩

theorem node_gap (h : Leads grammar s [] (t :: ts) ys us) :
    Leads grammar (.node kind s) xs (gap ++ t :: ts) (xs ++ gap.map .leaf ++ [.node kind ys])
      us := by
  intro b hb
  obtain ⟨inner, hrun, hinner, hquiet⟩ := h b.opened (hb.opened hgap ht)
  obtain ⟨hp, ha, hg⟩ := hinner.reads
  refine ⟨_, .node hrun, ⟨⟨hp, ha, hg⟩, ?_⟩, hquiet⟩
  simp [Builder.closeNode, hb.attach_trees hgap ht, hinner.trees]

theorem group_gap (h : Leads grammar s [] (t :: ts) ys us) :
    Leads grammar (.group s) xs (gap ++ t :: ts) (xs ++ gap.map .leaf ++ ys) us := by
  intro b hb
  obtain ⟨inner, hrun, hinner, hquiet⟩ := h b.opened (hb.opened hgap ht)
  obtain ⟨hp, ha, hg⟩ := hinner.reads
  refine ⟨_, .group hrun, ⟨⟨hp, ha, hg⟩, ?_⟩, hquiet⟩
  simp [Builder.closeGroup, hb.attach_trees hgap ht, hinner.trees]

end Gap

section Next

variable (ht : t.isTrivia = false)
include ht

theorem take : Leads grammar .take xs (t :: ts) (xs ++ [.leaf t]) ts := by
  have h : Leads grammar .take xs ([] ++ t :: ts) _ ts := take_gap (by simp) ht
  simpa using h

theorem node (h : Leads grammar s [] (t :: ts) ys us) :
    Leads grammar (.node kind s) xs (t :: ts) (xs ++ [.node kind ys]) us := by
  have h : Leads grammar (.node kind s) xs ([] ++ t :: ts) _ us := node_gap (by simp) ht h
  simpa using h

theorem group (h : Leads grammar s [] (t :: ts) ys us) :
    Leads grammar (.group s) xs (t :: ts) (xs ++ ys) us := by
  have h : Leads grammar (.group s) xs ([] ++ t :: ts) _ us := group_gap (by simp) ht h
  simpa using h

variable {g : Token} (hg : g.isTrivia = true)
include hg

theorem take_after : Leads grammar .take xs (g :: t :: ts) (xs ++ [.leaf g, .leaf t]) ts := by
  have h : Leads grammar .take xs ([g] ++ t :: ts) _ ts := take_gap (by simpa using hg) ht
  simpa using h

theorem node_after (h : Leads grammar s [] (t :: ts) ys us) :
    Leads grammar (.node kind s) xs (g :: t :: ts) (xs ++ [.leaf g, .node kind ys]) us := by
  have h : Leads grammar (.node kind s) xs ([g] ++ t :: ts) _ us :=
    node_gap (by simpa using hg) ht h
  simpa using h

theorem group_after (h : Leads grammar s [] (t :: ts) ys us) :
    Leads grammar (.group s) xs (g :: t :: ts) (xs ++ .leaf g :: ys) us := by
  have h : Leads grammar (.group s) xs ([g] ++ t :: ts) _ us :=
    group_gap (by simpa using hg) ht h
  simpa using h

end Next

end Leads

end Step

end CrossReference.Source
