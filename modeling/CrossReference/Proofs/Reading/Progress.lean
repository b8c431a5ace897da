import CrossReference.Proofs.Reading.Lossless
import CrossReference.Proofs.Reading.Recovery
import Mathlib.Data.Prod.Lex

/-!
Reading ends. A turn of a loop, from one test to the next, takes a token, and so does the way from a
rule back to itself. The calls of a reading are therefore well-founded, and a bound that is large
enough for the number of tokens is as good as none.
-/

namespace CrossReference.Source

open Lookahead

namespace Step

variable {ρ : Type} {grammar : ρ → Step ρ} {ranking : Ranking ρ} {s u : Step ρ} {b d : Builder}

inductive Turn (grammar : ρ → Step ρ) : Step ρ → Builder → Builder → Prop
  | again {test : List Token → Bool} {s : Step ρ} {b m : Builder} :
      test b.ahead = true → Runs grammar s b m → Turn grammar (.repeatWhile test s) b m
  | separated {test : List Token → Bool} {s : Step ρ} {b m : Builder} :
      test b.ahead = true → Runs grammar s b m → startsWith .comma m.ahead = true →
      Turn grammar (.commaList test s) b m.take

def Calls (grammar : ρ → Step ρ) (inner outer : ρ × Builder) : Prop :=
  Reaches grammar (grammar outer.1) outer.2 (.call inner.1) inner.2

theorem descends_mono {s : Step ρ} {ts : List Token} {e e' : Nat} (he : e ≤ e')
    (h : s.descends ranking e ts) : s.descends ranking e' ts := by
  induction s generalizing ts with
  | done | take | report => trivial
  | look choose ih => exact ih _ h
  | andThen s t ihs iht => exact ⟨ihs h.1, h.2.imp id iht⟩
  | node _ s ih | group s ih | wrap _ s ih => exact ih h
  | insist s recovery ihs ihr => exact ⟨ihs h.1, ihr h.2⟩
  | repeatWhile test s ih | commaList test s ih => exact fun ht => ih (h ht)
  | call rule => exact Nat.lt_of_lt_of_le h he

namespace Reaches

theorem steady (h : Reaches grammar s b u d) (hr : ranking.Respects grammar)
    (hs : s.steady ranking) : u.steady ranking := by
  induction h with
  | here => exact hs
  | look _ ih => exact ih (hs _)
  | first _ ih | insisted _ ih | turn _ _ ih => exact ih hs.1
  | second _ _ ih | recovery _ _ _ ih => exact ih hs.2
  | node _ ih | group _ ih | wrap _ ih | element _ _ ih => exact ih hs
  | nextTurn _ _ _ ih | nextElement _ _ _ _ ih => exact ih hs
  | call _ ih => exact ih (hr.steady _)

theorem togo_le (h : Reaches grammar s b u d) : d.togo ≤ b.togo := by
  induction h with
  | here => exact Nat.le_refl _
  | look _ ih | first _ ih | wrap _ ih | insisted _ ih | call _ ih => exact ih
  | turn _ _ ih | element _ _ ih => exact ih
  | second hs _ ih | recovery hs _ _ ih | nextTurn _ hs _ ih => exact ih.trans hs.togo_le
  | @node _ _ _ b _ _ ih | @group _ _ b _ _ ih => exact ih.trans b.togo_attach_le
  | @nextElement _ _ _ _ m _ _ hs _ _ ih =>
    have htake := (show Runs grammar .take m m.take from .take m).togo_le
    exact ih.trans (htake.trans hs.togo_le)

/-- A step on a later builder, unless a token was taken on the way there, calls only rules of rank
below `e` until it takes one. -/
def Sinks (ranking : Ranking ρ) (e : Nat) (b : Builder) (u : Step ρ) (d : Builder) : Prop :=
  d.togo < b.togo ∨ d.togo = b.togo ∧ d.ahead = b.ahead ∧ u.descends ranking e d.ahead

theorem Sinks.of_later {t : Step ρ} {m : Builder} {e : Nat}
    (hm : m.togo < b.togo ∨ m.togo = b.togo ∧ m.ahead = b.ahead) (hle : d.togo ≤ m.togo)
    (ht : t.descends ranking e b.ahead)
    (h : t.descends ranking e m.ahead → Sinks ranking e m u d) : Sinks ranking e b u d := by
  rcases hm with hlt | ⟨htogo, hahead⟩
  · exact .inl (Nat.lt_of_le_of_lt hle hlt)
  · rw [Sinks, ← htogo, ← hahead]
    exact h (hahead ▸ ht)

theorem sinks (h : Reaches grammar s b u d) (hr : ranking.Respects grammar) {e : Nat}
    (hs : s.descends ranking e b.ahead) : Sinks ranking e b u d := by
  induction h generalizing e with
  | here => exact .inr ⟨rfl, rfl, hs⟩
  | look _ ih | wrap _ ih => exact ih hs
  | first _ ih | insisted _ ih => exact ih hs.1
  | turn ht _ ih | element ht _ ih => exact ih (hs ht)
  | @second s t u b m d hrun h ih =>
    rcases hs.2 with ha | ht
    · exact .inl (Nat.lt_of_le_of_lt h.togo_le (hr.togo_lt hrun ha))
    · exact .of_later hrun.moves_or_stays h.togo_le ht ih
  | node h ih | group h ih =>
    exact .of_later (Builder.opened_moves_or_stays _) h.togo_le hs ih
  | recovery hrun _ h ih => exact .of_later hrun.moves_or_stays h.togo_le hs.2 ih
  | @nextTurn test s u b m d ht hrun h ih =>
    exact .of_later (t := .repeatWhile test s) hrun.moves_or_stays h.togo_le hs ih
  | nextElement _ hrun hcomma h _ =>
    have hne := ne_nil_of_startsWith hcomma
    exact .inl (Nat.lt_of_le_of_lt h.togo_le
      (Nat.lt_of_lt_of_le (Builder.togo_take_lt hne) hrun.togo_le))
  | @call rule u b d h ih =>
    exact (ih (hr.descends rule _)).imp id fun ⟨htogo, hahead, hu⟩ =>
      ⟨htogo, hahead, descends_mono (Nat.le_of_lt hs) hu⟩

end Reaches

theorem Turn.togo_lt (h : Turn grammar s b d) (hr : ranking.Respects grammar)
    (hs : s.steady ranking) : d.togo < b.togo := by
  cases h with
  | again ht hrun => exact hr.togo_lt hrun (hs.2 _ ht)
  | separated _ hrun hcomma =>
    exact Nat.lt_of_lt_of_le (Builder.togo_take_lt (ne_nil_of_startsWith hcomma)) hrun.togo_le

namespace Calls

variable {inner outer : ρ × Builder}

theorem togo_lt_or_rank_lt (h : Calls grammar inner outer) (hr : ranking.Respects grammar) :
    inner.2.togo < outer.2.togo ∨ inner.2.togo = outer.2.togo ∧
      inner.2.ahead = outer.2.ahead ∧
      ranking.rank inner.1 inner.2.ahead < ranking.rank outer.1 outer.2.ahead :=
  Reaches.sinks h hr (hr.descends _ _)

theorem togo_lt_of_cycle {rule : ρ} (h : Calls grammar (rule, d) (rule, b))
    (hr : ranking.Respects grammar) : d.togo < b.togo := by
  rcases h.togo_lt_or_rank_lt hr with hlt | ⟨_, hahead, hrank⟩
  · exact hlt
  · rw [hahead] at hrank
    exact absurd hrank (Nat.lt_irrefl _)

def weight (ranking : Ranking ρ) (call : ρ × Builder) : Nat ×ₗ Nat :=
  toLex (call.2.togo, ranking.rank call.1 call.2.ahead)

theorem weight_lt (h : Calls grammar inner outer) (hr : ranking.Respects grammar) :
    weight ranking inner < weight ranking outer :=
  Prod.Lex.toLex_lt_toLex.2 <| (h.togo_lt_or_rank_lt hr).imp id fun ⟨htogo, _, hrank⟩ =>
    ⟨htogo, hrank⟩

theorem wellFounded (hr : ranking.Respects grammar) : WellFounded (Calls grammar) :=
  Subrelation.wf (fun h => h.weight_lt hr) (InvImage.wf (weight ranking) wellFounded_lt)

end Calls

end Step

namespace Parse

theorem taken_readTokens (tokens : List Token) :
    (readTokens tokens).attach.taken = tokens.length := by
  have hcounts := (runs_file tokens).counts
  have htogo : (readTokens tokens).attach.togo = 0 := by rw [Builder.togo, left_readTokens]; rfl
  rw [← Builder.taken_togo_attach, htogo, Builder.togo, Builder.left_ofTokens] at hcounts
  simpa [Builder.ofTokens] using hcounts

theorem exists_runs_of_steady {start : Grammar.Act} (hs : start.steady Grammar.ranking)
    (b : Builder) :
    ∃ read, Step.Runs Grammar.body start b read ∧
      ∀ fuel, fuelFor b.togo ≤ fuel → Step.run Grammar.body fuel start b = read := by
  have hruns {fuel : Nat} (hfuel : fuelFor b.togo ≤ fuel) :
      Step.Runs Grammar.body start b (Step.run Grammar.body fuel start b) :=
    Step.runs_run Grammar.respects hs b hfuel
  exact ⟨_, hruns (Nat.le_refl _), fun _ hfuel => (hruns hfuel).unique (hruns (Nat.le_refl _))⟩

theorem reading_ends (tokens : List Token) :
    (∃ read, Step.Runs Grammar.body Grammar.file (.ofTokens tokens) read ∧
      read.attach.left = [] ∧ read.attach.taken = tokens.length ∧
      ofTokens tokens = ⟨read.attach.built.reverse, read.errors.reverse⟩ ∧
      ∀ fuel, fuelFor tokens.length ≤ fuel →
        Step.run Grammar.body fuel Grammar.file (.ofTokens tokens) = read) ∧
    (∀ start b, (start = Grammar.file ∨ ∃ rule, start = .call rule) →
      (∃ read, Step.Runs Grammar.body start b read ∧
        ∀ fuel, fuelFor b.togo ≤ fuel → Step.run Grammar.body fuel start b = read) ∧
      ∀ loop d d', Step.Reaches Grammar.body start b loop d → Step.Turn Grammar.body loop d d' →
        d'.togo < d.togo) ∧
    (∀ rule b d, Step.Calls Grammar.body (rule, d) (rule, b) → d.togo < b.togo) ∧
    WellFounded (Step.Calls Grammar.body) := by
  refine ⟨⟨readTokens tokens, runs_file tokens, left_readTokens tokens, taken_readTokens tokens,
    ofTokens_eq tokens, ?_⟩, ?_, ?_, Step.Calls.wellFounded Grammar.respects⟩
  · intro fuel hfuel
    obtain ⟨read, hread, hsame⟩ := exists_runs_of_steady Grammar.steady_file (.ofTokens tokens)
    rw [(runs_file tokens).unique hread]
    exact hsame fuel (by rwa [Builder.togo, Builder.left_ofTokens])
  · intro start b hstart
    have hsteady : start.steady Grammar.ranking := by
      rcases hstart with rfl | ⟨rule, rfl⟩
      · exact Grammar.steady_file
      · trivial
    refine ⟨exists_runs_of_steady hsteady b, fun loop d d' hreach hturn => ?_⟩
    exact hturn.togo_lt Grammar.respects (hreach.steady Grammar.respects hsteady)
  · exact fun rule b d h => h.togo_lt_of_cycle Grammar.respects

end Parse

end CrossReference.Source
