import CrossReference.Proofs.Reading.Runs

/-!
When a bound is enough. A grammar gives each rule a rank, and says at which tokens a rule is sure to
take one. If every turn of a loop takes a token, and a rule calls only rules of lower rank before it
has taken one, then a bound linear in the number of tokens is never reached.
-/

namespace CrossReference.Source.Step

open Lookahead

variable {ρ : Type} {grammar : ρ → Step ρ}

/-- Where rules are sure to take a token, their ranks, and a bound of the ranks. -/
structure Ranking (ρ : Type) where
  sure : ρ → List Token → Bool
  rank : ρ → List Token → Nat
  limit : Nat

@[simp] def advances (ranking : Ranking ρ) : Step ρ → List Token → Prop
  | .done, _ => False
  | .take, ts => ts ≠ []
  | .report _, _ => False
  | .look choose, ts => (choose ts).advances ranking ts
  | .andThen s t, ts => s.advances ranking ts ∨ t.advances ranking ts
  | .node _ s, ts => s.advances ranking ts
  | .group s, ts => s.advances ranking ts
  | .wrap _ s, ts => s.advances ranking ts
  | .insist s recovery, ts => s.advances ranking ts ∨ ts ≠ [] ∧ recovery.advances ranking ts
  | .repeatWhile test s, ts => test ts = true ∧ s.advances ranking ts
  | .commaList test s, ts => test ts = true ∧ s.advances ranking ts
  | .call rule, ts => ranking.sure rule ts = true

def turns (ranking : Ranking ρ) (s : Step ρ) (test : List Token → Bool) : Prop :=
  ∀ ts, test ts = true → s.advances ranking ts

@[simp] def steady (ranking : Ranking ρ) : Step ρ → Prop
  | .done => True
  | .take => True
  | .report _ => True
  | .look choose => ∀ ts, (choose ts).steady ranking
  | .andThen s t => s.steady ranking ∧ t.steady ranking
  | .node _ s => s.steady ranking
  | .group s => s.steady ranking
  | .wrap _ s => s.steady ranking
  | .insist s recovery => s.steady ranking ∧ recovery.steady ranking
  | .repeatWhile test s => s.steady ranking ∧ s.turns ranking test
  | .commaList _ s => s.steady ranking
  | .call _ => True

/-- Whether a step with `ts` ahead calls only rules of rank below `d` until it takes a token. -/
@[simp] def descends (ranking : Ranking ρ) (d : Nat) : Step ρ → List Token → Prop
  | .done, _ => True
  | .take, _ => True
  | .report _, _ => True
  | .look choose, ts => (choose ts).descends ranking d ts
  | .andThen s t, ts => s.descends ranking d ts ∧ (s.advances ranking ts ∨ t.descends ranking d ts)
  | .node _ s, ts => s.descends ranking d ts
  | .group s, ts => s.descends ranking d ts
  | .wrap _ s, ts => s.descends ranking d ts
  | .insist s recovery, ts => s.descends ranking d ts ∧ recovery.descends ranking d ts
  | .repeatWhile test s, ts => test ts = true → s.descends ranking d ts
  | .commaList test s, ts => test ts = true → s.descends ranking d ts
  | .call rule, ts => ranking.rank rule ts < d

structure Ranking.Respects (ranking : Ranking ρ) (grammar : ρ → Step ρ) : Prop where
  sure : ∀ rule ts, ranking.sure rule ts = true → (grammar rule).advances ranking ts
  steady : ∀ rule, (grammar rule).steady ranking
  descends : ∀ rule ts, (grammar rule).descends ranking (ranking.rank rule ts) ts
  rank_lt : ∀ rule ts, ranking.rank rule ts < ranking.limit

namespace Ranking.Respects

variable {ranking : Ranking ρ}

theorem togo_lt (hr : ranking.Respects grammar) {s : Step ρ} {b b' : Builder}
    (h : Runs grammar s b b') (ha : s.advances ranking b.ahead) : b'.togo < b.togo := by
  induction h with
  | done | report => exact ha.elim
  | take b => exact Builder.togo_take_lt ha
  | look _ ih | wrap _ ih => exact ih ha
  | @andThen s t b m b' hs ht ihs iht =>
    have hle := ht.togo_le
    rcases hs.moves_or_stays with hlt | ⟨heq, hahead⟩
    · omega
    · rcases ha with ha | ha
      · exact Nat.lt_of_le_of_lt hle (ihs ha)
      · have := iht (hahead ▸ ha)
        omega
  | @node _ _ b _ _ ih | @group _ b _ _ ih => exact Nat.lt_of_lt_of_le (ih ha) b.togo_attach_le
  | @insistMoved s recovery b tried hs hm ih =>
    rcases ha with ha | ⟨hne, _⟩
    · exact ih ha
    · rcases hs.moves_or_stays with hlt | ⟨heq, hahead⟩
      · exact hlt
      · refine absurd ⟨hs.taken_eq_iff.2 heq, ?_⟩ hm
        simpa [Builder.atEnd, hahead] using hne
  | @insistStuck s recovery b tried b' hs hn _ ihs ihr =>
    have heq := hs.taken_eq_iff.1 hn.1
    rcases hs.moves_or_stays with hlt | ⟨_, hahead⟩
    · omega
    · rcases ha with ha | ⟨_, ha⟩
      · have := ihs ha
        omega
      · have := ihr (hahead ▸ ha)
        omega
  | repeatStop ht | commaStop ht => simp [ht] at ha
  | repeatTurn _ _ hr ihs _ => exact Nat.lt_of_le_of_lt hr.togo_le (ihs ha.2)
  | commaLast _ _ _ ih => exact ih ha.2
  | @commaMore test s b m b' _ hs hc hr ihs _ =>
    have hm := ihs ha.2
    have htake := (show Runs grammar .take m m.take from .take m).togo_le
    have hle := hr.togo_le
    omega
  | call _ ih => exact ih (hr.sure _ _ ha)

theorem descends_limit (hr : ranking.Respects grammar) (s : Step ρ) (ts : List Token) :
    s.descends ranking ranking.limit ts := by
  induction s generalizing ts with
  | done | take | report => trivial
  | look choose ih => exact ih _ _
  | andThen s t ihs iht => exact ⟨ihs _, .inr (iht _)⟩
  | node _ s ih | group s ih | wrap _ s ih => exact ih _
  | insist s recovery ihs ihr => exact ⟨ihs _, ihr _⟩
  | repeatWhile test s ih | commaList test s ih => exact fun _ => ih _
  | call rule => exact hr.rank_lt _ _

end Ranking.Respects

theorem exec_commaList (again : Step ρ → Builder → Builder) (test : List Token → Bool)
    (s : Step ρ) (b : Builder) :
    exec grammar again (.commaList test s) b =
      if test b.ahead then
        if startsWith .comma (exec grammar again s b).ahead then
          again (.commaList test s) (exec grammar again s b).take
        else exec grammar again s b
      else b := by
  simp only [exec]
  generalize exec grammar again s b = read
  cases h : read.ahead <;> simp [startsWith, kind?]

theorem room_after (limit : Nat) {m n : Nat} (h : m < n) :
    (limit + 1) * m + limit < (limit + 1) * n := by
  have hle : (limit + 1) * (m + 1) ≤ (limit + 1) * n := Nat.mul_le_mul_left _ h
  rw [Nat.mul_add] at hle
  omega

def Affords (ranking : Ranking ρ) (grammar : ρ → Step ρ) (fuel : Nat) : Prop :=
  ∀ (t : Step ρ) (c : Builder) (e : Nat), t.steady ranking → t.descends ranking e c.ahead →
    (ranking.limit + 1) * c.togo + e < fuel → Runs grammar t c (run grammar fuel t c)

theorem runs_exec {ranking : Ranking ρ} (hr : ranking.Respects grammar) {fuel : Nat}
    (again : Affords ranking grammar fuel) {s : Step ρ} {b : Builder} {d : Nat}
    (hs : s.steady ranking) (hd : s.descends ranking d b.ahead)
    (hfuel : (ranking.limit + 1) * b.togo + d ≤ fuel) :
    Runs grammar s b (exec grammar (run grammar fuel) s b) := by
  induction s generalizing b d with
  | done => exact .done b
  | take => exact .take b
  | report message => exact .report message b
  | look choose ih => exact .look (ih b.ahead (hs _) hd hfuel)
  | andThen s t ihs iht =>
    have hrun := ihs hs.1 hd.1 hfuel
    refine .andThen hrun ?_
    rcases hrun.moves_or_stays with hlt | ⟨heq, hahead⟩
    · have hroom := room_after ranking.limit hlt
      exact iht hs.2 (hr.descends_limit t _) (by omega)
    · rcases hd.2 with ha | ht
      · have := hr.togo_lt hrun ha
        omega
      · exact iht hs.2 (hahead ▸ ht) (heq ▸ hfuel)
  | node kind s ih =>
    have hle := Nat.mul_le_mul_left (ranking.limit + 1) b.togo_attach_le
    exact .node (ih hs hd (Nat.le_trans (Nat.add_le_add_right hle d) hfuel))
  | group s ih =>
    have hle := Nat.mul_le_mul_left (ranking.limit + 1) b.togo_attach_le
    exact .group (ih hs hd (Nat.le_trans (Nat.add_le_add_right hle d) hfuel))
  | wrap kind s ih => exact .wrap (ih hs hd hfuel)
  | insist s recovery ihs ihr =>
    have hrun := ihs hs.1 hd.1 hfuel
    rw [exec]
    split
    · next hstuck =>
      have heq := hrun.taken_eq_iff.1 hstuck.1
      rcases hrun.moves_or_stays with hlt | ⟨_, hahead⟩
      · omega
      · exact .insistStuck hrun hstuck (ihr hs.2 (hahead ▸ hd.2) (heq ▸ hfuel))
    · next hmoved => exact .insistMoved hrun hmoved
  | repeatWhile test s ih =>
    rw [exec]
    split
    · next ht =>
      have hrun := ih hs.1 (hd ht) hfuel
      have hroom := room_after ranking.limit (hr.togo_lt hrun (hs.2 _ ht))
      exact .repeatTurn ht hrun (again _ _ ranking.limit hs (hr.descends_limit _ _) (by omega))
    · next ht => exact .repeatStop (by simpa using ht)
  | commaList test s ih =>
    rw [exec_commaList]
    split
    · next ht =>
      have hrun := ih hs (hd ht) hfuel
      split
      · next hc =>
        have hne : (exec grammar (run grammar fuel) s b).ahead ≠ [] := by
          intro h
          simp [h, startsWith, kind?] at hc
        have hroom := room_after ranking.limit
          (Nat.lt_of_lt_of_le (Builder.togo_take_lt hne) hrun.togo_le)
        exact .commaMore ht hrun hc
          (again _ _ ranking.limit hs (hr.descends_limit _ _) (by omega))
      · next hc => exact .commaLast ht hrun (by simpa using hc)
    · next ht => exact .commaStop (by simpa using ht)
  | call rule =>
    have hlt : ranking.rank rule b.ahead < d := hd
    exact .call (again _ _ _ (hr.steady _) (hr.descends _ _) (by omega))

theorem affords {ranking : Ranking ρ} (hr : ranking.Respects grammar) (fuel : Nat) :
    Affords ranking grammar fuel := by
  induction fuel with
  | zero => exact fun _ _ _ _ _ h => absurd h (Nat.not_lt_zero _)
  | succ fuel ih => exact fun t c e ht he h => runs_exec hr ih ht he (Nat.le_of_lt_succ h)

theorem runs_run {ranking : Ranking ρ} (hr : ranking.Respects grammar) {fuel : Nat} {s : Step ρ}
    (hs : s.steady ranking) (b : Builder) (hfuel : (ranking.limit + 1) * (b.togo + 1) ≤ fuel) :
    Runs grammar s b (run grammar fuel s b) := by
  refine affords hr fuel s b ranking.limit hs (hr.descends_limit s _) ?_
  rw [Nat.mul_add] at hfuel
  omega

end CrossReference.Source.Step
