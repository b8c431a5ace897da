import CrossReference.Proofs.Reading.Frame

/-!
Contracts of steps. The parts of an open list are its nodes and its significant tokens, by kind. A
shaping says which parts a node may have and which parts a rule adds. From what a step needs before
it, so that some assertion holds of the open list after it, follows the shape of all nodes that the
step makes.
-/

namespace CrossReference.Source

open Lookahead

inductive Part where
  | node (kind : NodeKind)
  | token (kind : TokenKind)
deriving DecidableEq

namespace Tree

def part? : Tree → Option Part
  | .node kind _ => some (.node kind)
  | .leaf t => if t.isTrivia then none else some (.token t.kind)

def parts (ts : List Tree) : List Part := ts.filterMap part?

@[simp] theorem parts_append (xs ys : List Tree) : parts (xs ++ ys) = parts xs ++ parts ys := by
  simp [parts]

theorem parts_trivia {gap : List Token} (h : ∀ g ∈ gap, g.isTrivia) :
    parts (gap.map .leaf) = [] := by
  rw [parts, List.filterMap_map, List.filterMap_eq_nil_iff]
  intro g hg
  simp [part?, h g hg]

end Tree

namespace Builder

def parts (b : Builder) : List Part := Tree.parts b.built.reverse

theorem Aligned.ahead_significant {b : Builder} (h : b.Aligned) :
    ∀ t ∈ b.ahead, t.isTrivia = false := by
  intro t ht
  rw [h.ahead, significant, List.mem_filter] at ht
  simpa using ht.2

theorem parts_attach {b : Builder} (h : b.Aligned) : b.attach.parts = b.parts := by
  simp [parts, attach, Tree.parts_trivia h.pending_trivia]

theorem parts_take {b : Builder} {t : Token} {ts : List Token} (h : b.Aligned)
    (ha : b.ahead = t :: ts) : b.take.parts = b.parts ++ [.token t.kind] := by
  have ht : t.isTrivia = false := h.ahead_significant t (by simp [ha])
  rw [← parts_attach h, take_of_cons ha]
  simp [parts, Tree.parts, Tree.part?, ht]

end Builder

namespace Step

variable {ρ : Type} {grammar : ρ → Step ρ}

/-- Which parts fit into a node, and which parts a rule adds to the open list. -/
structure Shaping (ρ : Type) where
  fits : NodeKind → List Part → Prop
  adds : ρ → List Part → Prop

abbrev Assertion := List Part → List Token → Prop

def GoesOn (more : List Part → Prop) (ps qs : List Part) : Prop := ∃ rs, qs = ps ++ rs ∧ more rs

@[simp] theorem goesOn_append {more : List Part → Prop} {ps rs : List Part} :
    GoesOn more ps (ps ++ rs) ↔ more rs := by
  simp [GoesOn]

@[simp] theorem goesOn_self {more : List Part → Prop} {ps : List Part} :
    GoesOn more ps ps ↔ more [] := by
  simp [GoesOn]

/-- What has to hold of the open list and the tokens ahead so that a step leads to `post`, and every
node it makes fits. -/
def needs (shaping : Shaping ρ) : Step ρ → Assertion → Assertion
  | .done, post, ps, ts => post ps ts
  | .take, post, ps, [] => post ps []
  | .take, post, ps, t :: ts => post (ps ++ [.token t.kind]) ts
  | .report _, post, ps, ts => post ps ts
  | .look choose, post, ps, ts => needs shaping (choose ts) post ps ts
  | .andThen first second, post, ps, ts =>
    needs shaping first (needs shaping second post) ps ts
  | .node kind body, post, ps, ts =>
    needs shaping body (fun qs us => shaping.fits kind qs ∧ post (ps ++ [.node kind]) us) [] ts
  | .group body, post, ps, ts => needs shaping body (fun qs us => post (ps ++ qs) us) [] ts
  | .wrap kind body, post, ps, ts =>
    needs shaping body (fun qs us => shaping.fits kind qs ∧ post [.node kind] us) ps ts
  | .insist body recovery, post, ps, ts =>
    needs shaping body (fun qs us => post qs us ∧ needs shaping recovery post qs us) ps ts
  | .repeatWhile test body, post, ps, ts =>
    ∃ kept : Assertion, kept ps ts ∧
      ∀ qs us, kept qs us →
        if test us then needs shaping body kept qs us else post qs us
  | .commaList test body, post, ps, ts =>
    ∃ kept : Assertion, kept ps ts ∧
      ∀ qs us, kept qs us →
        if test us then
          needs shaping body
            (fun rs vs =>
              if startsWith .comma vs then kept (rs ++ [.token .comma]) vs.tail else post rs vs)
            qs us
        else post qs us
  | .call rule, post, ps, _ => ∀ rs us, shaping.adds rule rs → post (ps ++ rs) us

theorem needs_mono {shaping : Shaping ρ} {s : Step ρ} {post post' : Assertion}
    (hpost : ∀ ps ts, post ps ts → post' ps ts) {ps : List Part} {ts : List Token}
    (h : s.needs shaping post ps ts) : s.needs shaping post' ps ts := by
  induction s generalizing post post' ps ts with
  | done | report => exact hpost _ _ h
  | take => cases ts <;> exact hpost _ _ h
  | look choose ih => exact ih _ hpost h
  | andThen first second ihf ihs => exact ihf (fun _ _ => ihs hpost) h
  | node kind body ih | wrap kind body ih => exact ih (fun _ _ h => ⟨h.1, hpost _ _ h.2⟩) h
  | group body ih => exact ih (fun _ _ => hpost _ _) h
  | insist body recovery ihb ihr =>
    exact ihb (fun _ _ h => ⟨hpost _ _ h.1, ihr hpost h.2⟩) h
  | repeatWhile test body _ =>
    obtain ⟨kept, hstart, hkept⟩ := h
    refine ⟨kept, hstart, fun qs us hk => ?_⟩
    have hturn := hkept qs us hk
    cases ht : test us with
    | true => simpa [ht] using hturn
    | false =>
      rw [ht] at hturn
      exact hpost _ _ hturn
  | commaList test body ih =>
    obtain ⟨kept, hstart, hkept⟩ := h
    refine ⟨kept, hstart, fun qs us hk => ?_⟩
    have hturn := hkept qs us hk
    cases ht : test us with
    | true =>
      rw [ht] at hturn
      refine ih (fun rs vs h => ?_) hturn
      cases hc : startsWith .comma vs with
      | true => simpa [hc] using h
      | false =>
        rw [hc] at h
        exact hpost _ _ h
    | false =>
      rw [ht] at hturn
      exact hpost _ _ hturn
  | call rule => exact fun rs us h' => hpost _ _ (h rs us h')

def AllOf (P : Part → Prop) (ps : List Part) : Prop := ∀ p ∈ ps, P p

section AllOf

variable {P : Part → Prop} {ps qs : List Part}

@[simp] theorem allOf_nil : AllOf P [] := by simp [AllOf]

@[simp] theorem allOf_cons {p : Part} : AllOf P (p :: ps) ↔ P p ∧ AllOf P ps := by
  simp [AllOf]

@[simp] theorem allOf_append : AllOf P (ps ++ qs) ↔ AllOf P ps ∧ AllOf P qs := by
  simp [AllOf, or_imp, forall_and]

theorem AllOf.imp {Q : Part → Prop} (h : ∀ p, P p → Q p) (hps : AllOf P ps) : AllOf Q ps :=
  fun p hp => h p (hps p hp)

theorem GoesOn.trans {rs : List Part} (h : GoesOn (AllOf P) ps qs)
    (h' : GoesOn (AllOf P) qs rs) : GoesOn (AllOf P) ps rs := by
  obtain ⟨xs, rfl, hxs⟩ := h
  obtain ⟨ys, rfl, hys⟩ := h'
  exact ⟨xs ++ ys, by simp, allOf_append.2 ⟨hxs, hys⟩⟩

end AllOf

section Loops

variable {shaping : Shaping ρ} {test : List Token → Bool} {body : Step ρ} {post : Assertion}
  {P : Part → Prop} {ps : List Part} {ts : List Token}

theorem needs_repeat
    (hbody : ∀ qs us, test us = true →
      body.needs shaping (fun rs _ => GoesOn (AllOf P) qs rs) qs us)
    (hpost : ∀ rs us, AllOf P rs → post (ps ++ rs) us) :
    (Step.repeatWhile test body).needs shaping post ps ts := by
  refine ⟨fun qs _ => GoesOn (AllOf P) ps qs, goesOn_self.2 allOf_nil, fun qs us hk => ?_⟩
  split
  · next ht => exact needs_mono (fun _ _ => hk.trans) (hbody qs us ht)
  · obtain ⟨rs, rfl, hrs⟩ := hk
    exact hpost rs us hrs

theorem needs_comma (hcomma : P (.token .comma))
    (hbody : ∀ qs us, test us = true →
      body.needs shaping (fun rs _ => GoesOn (AllOf P) qs rs) qs us)
    (hpost : ∀ rs us, AllOf P rs → post (ps ++ rs) us) :
    (Step.commaList test body).needs shaping post ps ts := by
  refine ⟨fun qs _ => GoesOn (AllOf P) ps qs, goesOn_self.2 allOf_nil, fun qs us hk => ?_⟩
  split
  · next ht =>
    refine needs_mono (fun rs vs h => ?_) (hbody qs us ht)
    split
    · exact (hk.trans h).trans (goesOn_append.2 (by simpa using hcomma))
    · obtain ⟨xs, rfl, hxs⟩ := hk.trans h
      exact hpost xs vs hxs
  · obtain ⟨rs, rfl, hrs⟩ := hk
    exact hpost rs us hrs

end Loops

def Closes (shaping : Shaping ρ) (kind : NodeKind) (s : Step ρ) : Prop :=
  ∀ ts, s.needs shaping (fun qs _ => shaping.fits kind qs) [] ts

def Gives (more : List Part → Prop) (P : Part → Prop) : Prop := ∀ ps, more ps → AllOf P ps

@[simp] theorem gives_allOf {P : Part → Prop} : Gives (AllOf P) P := fun _ h => h

@[simp] theorem gives_single {P : Part → Prop} {p : Part} : Gives (fun ps => ps = [p]) P ↔ P p := by
  simp [Gives]

/-- Whether every part a step adds has a property, whatever the tokens ahead are. Only a step that
reaches back into the open list is left out. -/
@[simp] def Keeps (shaping : Shaping ρ) (P : Part → Prop) : Step ρ → Prop
  | .done | .report _ => True
  | .take => ∀ kind, P (.token kind)
  | .look choose => ∀ ts, (choose ts).Keeps shaping P
  | .andThen first second => first.Keeps shaping P ∧ second.Keeps shaping P
  | .node kind body => body.Closes shaping kind ∧ P (.node kind)
  | .group body => ∀ ts, body.needs shaping (fun qs _ => AllOf P qs) [] ts
  | .wrap _ _ => False
  | .insist body recovery => body.Keeps shaping P ∧ recovery.Keeps shaping P
  | .repeatWhile _ body => body.Keeps shaping P
  | .commaList _ body => body.Keeps shaping P ∧ P (.token .comma)
  | .call rule => Gives (shaping.adds rule) P

theorem needs_of_keeps {shaping : Shaping ρ} {P : Part → Prop} {s : Step ρ}
    (hs : s.Keeps shaping P) {post : Assertion} {ps : List Part} {ts : List Token}
    (hpost : ∀ rs us, AllOf P rs → post (ps ++ rs) us) : s.needs shaping post ps ts := by
  have here {ps : List Part} {post : Assertion} (h : ∀ rs us, AllOf P rs → post (ps ++ rs) us)
      (us : List Token) : post ps us := by simpa using h [] us allOf_nil
  induction s generalizing post ps ts with
  | done | report => exact here hpost ts
  | take =>
    cases ts with
    | nil => exact here hpost []
    | cons t ts => exact hpost [.token t.kind] ts (by simpa using hs t.kind)
  | look choose ih => exact ih ts (hs ts) hpost
  | andThen first second ihf ihs =>
    refine ihf hs.1 fun rs us hrs => ihs hs.2 fun rs' us' hrs' => ?_
    rw [List.append_assoc]
    exact hpost _ us' (allOf_append.2 ⟨hrs, hrs'⟩)
  | node kind body _ =>
    refine needs_mono (s := body) (fun qs us hfits => ⟨hfits, ?_⟩) (hs.1 ts)
    exact hpost [.node kind] us (by simpa using hs.2)
  | group body _ => exact needs_mono (s := body) (fun qs us hqs => hpost qs us hqs) (hs ts)
  | wrap => exact hs.elim
  | insist body recovery ihb ihr =>
    refine ihb hs.1 fun rs us hrs => ⟨hpost rs us hrs, ihr hs.2 fun rs' us' hrs' => ?_⟩
    rw [List.append_assoc]
    exact hpost _ us' (allOf_append.2 ⟨hrs, hrs'⟩)
  | repeatWhile test body ih =>
    refine needs_repeat (fun qs us _ => ih hs fun rs _ hrs => ?_) hpost
    exact goesOn_append.2 hrs
  | commaList test body ih =>
    refine needs_comma hs.2 (fun qs us _ => ih hs.1 fun rs _ hrs => ?_) hpost
    exact goesOn_append.2 hrs
  | call rule => exact fun rs us hrs => hpost rs us (hs rs hrs)

end Step

namespace Tree

open Step (Shaping)

variable {ρ : Type}

mutual

def Shaped (shaping : Shaping ρ) : Tree → Prop
  | .node kind children => shaping.fits kind (parts children) ∧ ShapedAll shaping children
  | .leaf _ => True

def ShapedAll (shaping : Shaping ρ) : List Tree → Prop
  | [] => True
  | t :: ts => t.Shaped shaping ∧ ShapedAll shaping ts

end

variable {shaping : Shaping ρ}

theorem shapedAll_iff {ts : List Tree} : ShapedAll shaping ts ↔ ∀ t ∈ ts, t.Shaped shaping := by
  induction ts with
  | nil => simp [ShapedAll]
  | cons t ts ih => simp [ShapedAll, ih]

end Tree

namespace Builder

open Step (Shaping)

variable {ρ : Type} {shaping : Shaping ρ} {b inner : Builder}

def Shaped (shaping : Shaping ρ) (b : Builder) : Prop := ∀ t ∈ b.built, t.Shaped shaping

theorem Shaped.attach (h : b.Shaped shaping) : b.attach.Shaped shaping := by
  intro t ht
  rcases List.mem_append.1 ht with ht | ht
  · obtain ⟨token, _, rfl⟩ := List.mem_map.1 (List.mem_reverse.1 ht)
    trivial
  · exact h t ht

theorem Shaped.take (h : b.Shaped shaping) : b.take.Shaped shaping := by
  cases ha : b.ahead with
  | nil =>
    rw [take_of_nil ha]
    exact h.attach
  | cons t ts =>
    rw [take_of_cons ha]
    exact List.forall_mem_cons.2 ⟨trivial, h.attach⟩

theorem shaped_opened (b : Builder) : b.opened.Shaped shaping := by
  simp [Shaped, opened]

theorem Shaped.node {kind : NodeKind} (h : inner.Shaped shaping)
    (hfits : shaping.fits kind inner.parts) :
    (Tree.node kind inner.built.reverse).Shaped shaping :=
  ⟨hfits, Tree.shapedAll_iff.2 fun t ht => h t (List.mem_reverse.1 ht)⟩

end Builder

namespace Step

variable {ρ : Type} {grammar : ρ → Step ρ} {shaping : Shaping ρ}

def Shaping.Respects (shaping : Shaping ρ) (grammar : ρ → Step ρ) : Prop :=
  ∀ rule ps ts, (grammar rule).needs shaping (fun qs _ => GoesOn (shaping.adds rule) ps qs) ps ts

theorem Runs.shaped (hrules : shaping.Respects grammar) {s : Step ρ} {b b' : Builder}
    {post : Assertion} (h : Runs grammar s b b') (hb : b.Aligned) (hshaped : b.Shaped shaping)
    (hs : s.needs shaping post b.parts b.ahead) :
    b'.Shaped shaping ∧ post b'.parts b'.ahead := by
  -- A loop brings the assertion that its turns keep, and a call is worth what its rule adds.
  induction h generalizing post with
  | done | report => exact ⟨hshaped, hs⟩
  | take b =>
    refine ⟨hshaped.take, ?_⟩
    cases ha : b.ahead with
    | nil =>
      rw [ha] at hs
      rw [Builder.take_of_nil ha, Builder.parts_attach hb, Builder.ahead_attach, ha]
      exact hs
    | cons t ts =>
      rw [ha] at hs
      rw [Builder.parts_take hb ha, Builder.take_of_cons ha]
      exact hs
  | look _ ih => exact ih hb hshaped hs
  | andThen hfirst _ ihf ihs =>
    obtain ⟨hshaped, hs⟩ := ihf hb hshaped hs
    exact ihs (hfirst.aligned hb) hshaped hs
  | @node kind s b inner hrun ih =>
    have hopened : b.opened.Aligned := hb.attach.same rfl rfl rfl
    obtain ⟨hinner, hfits, hpost⟩ := ih hopened b.shaped_opened hs
    refine ⟨List.forall_mem_cons.2 ⟨hinner.node hfits, hshaped.attach⟩, ?_⟩
    have hparts : (b.closeNode kind inner).parts = b.parts ++ [.node kind] := by
      rw [← Builder.parts_attach hb]
      simp [Builder.parts, Builder.closeNode, Tree.parts, Tree.part?]
    rw [hparts]
    exact hpost
  | @group s b inner hrun ih =>
    have hopened : b.opened.Aligned := hb.attach.same rfl rfl rfl
    obtain ⟨hinner, hpost⟩ := ih hopened b.shaped_opened hs
    refine ⟨fun t ht => (List.mem_append.1 ht).elim (hinner t) (hshaped.attach t), ?_⟩
    have hparts : (b.closeGroup inner).parts = b.parts ++ inner.parts := by
      rw [← Builder.parts_attach hb]
      simp [Builder.parts, Builder.closeGroup]
    rw [hparts]
    exact hpost
  | wrap _ ih =>
    obtain ⟨hshaped, hfits, hpost⟩ := ih hb hshaped hs
    exact ⟨List.forall_mem_cons.2 ⟨hshaped.node hfits, by simp⟩, hpost⟩
  | insistMoved _ _ ih =>
    obtain ⟨hshaped, hpost, _⟩ := ih hb hshaped hs
    exact ⟨hshaped, hpost⟩
  | insistStuck htried _ _ ihs ihr =>
    obtain ⟨hshaped, _, hrecovery⟩ := ihs hb hshaped hs
    exact ihr (htried.aligned hb) hshaped hrecovery
  | repeatStop ht =>
    obtain ⟨kept, hstart, hkept⟩ := hs
    have hend := hkept _ _ hstart
    rw [ht] at hend
    exact ⟨hshaped, hend⟩
  | repeatTurn ht hturn _ ihs ihr =>
    obtain ⟨kept, hstart, hkept⟩ := hs
    have hbody := hkept _ _ hstart
    rw [ht] at hbody
    obtain ⟨hshaped, hm⟩ := ihs hb hshaped hbody
    exact ihr (hturn.aligned hb) hshaped ⟨kept, hm, hkept⟩
  | commaStop ht =>
    obtain ⟨kept, hstart, hkept⟩ := hs
    have hend := hkept _ _ hstart
    rw [ht] at hend
    exact ⟨hshaped, hend⟩
  | commaLast ht _ hc ih =>
    obtain ⟨kept, hstart, hkept⟩ := hs
    have hbody := hkept _ _ hstart
    rw [ht] at hbody
    obtain ⟨hshaped, hend⟩ := ih hb hshaped hbody
    rw [hc] at hend
    exact ⟨hshaped, hend⟩
  | @commaMore _ _ b m b' ht hturn hc _ ihs ihr =>
    obtain ⟨kept, hstart, hkept⟩ := hs
    have hbody := hkept _ _ hstart
    rw [ht] at hbody
    obtain ⟨hshaped, hm⟩ := ihs hb hshaped hbody
    rw [hc] at hm
    have hm' := hturn.aligned hb
    refine ihr hm'.take hshaped.take ⟨kept, ?_, hkept⟩
    obtain ⟨t, ts, ha⟩ := List.exists_cons_of_ne_nil (ne_nil_of_startsWith hc)
    have hkind : t.kind = .comma := by simpa [ha, startsWith, kind?] using hc
    rw [Builder.parts_take hm' ha, Builder.take_of_cons ha, hkind]
    simpa [ha] using hm
  | @call rule b b' _ ih =>
    obtain ⟨hshaped, rs, hparts, hadds⟩ := ih hb hshaped (hrules rule b.parts b.ahead)
    refine ⟨hshaped, ?_⟩
    rw [hparts]
    exact hs rs _ hadds

end Step

end CrossReference.Source
