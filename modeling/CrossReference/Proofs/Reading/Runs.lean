import CrossReference.Source.Lookahead
import CrossReference.Source.Step

/-!
What a step does to a builder, without a bound: `Runs` relates the builder before to the builder
after. Whatever runs keeps every token, and once a run took no token at all, nothing ahead changed.
-/

namespace CrossReference.Source

open Lookahead

namespace Builder

def seen (b : Builder) : List Token := Tree.tokensAll b.built.reverse

def togo (b : Builder) : Nat := b.left.length

theorem left_attach (b : Builder) : b.attach.left = weave b.ahead b.gaps := by
  simp [left, attach]

theorem left_eq (b : Builder) : b.left = b.pending ++ b.attach.left := by
  simp [left, attach]

theorem seen_attach (b : Builder) : b.attach.seen = b.seen ++ b.pending := by
  simp [seen, attach]

theorem seen_left_attach (b : Builder) : b.attach.seen ++ b.attach.left = b.seen ++ b.left := by
  rw [seen_attach, left_eq b, List.append_assoc]

@[simp] theorem ahead_attach (b : Builder) : b.attach.ahead = b.ahead := rfl

@[simp] theorem taken_attach (b : Builder) : b.attach.taken = b.taken + b.pending.length := rfl

theorem take_of_nil {b : Builder} (h : b.ahead = []) : b.take = b.attach := by
  simp [take, attach, h]

theorem take_of_cons {b : Builder} {t : Token} {ts : List Token} (h : b.ahead = t :: ts) :
    b.take = ⟨b.gaps.headD [], ts, b.gaps.tail, b.place + t.size + byteSize (b.gaps.headD []),
      b.attach.taken + 1, .leaf t :: b.attach.built, b.errors⟩ := by
  simp [take, attach, h]

theorem weave_cons (t : Token) (ts : List Token) (gaps : List (List Token)) :
    weave (t :: ts) gaps = t :: (gaps.headD [] ++ weave ts gaps.tail) := by
  cases gaps <;> simp [weave]

theorem left_take {b : Builder} {t : Token} {ts : List Token} (h : b.ahead = t :: ts) :
    b.attach.left = t :: b.take.left := by
  rw [left_attach, h, weave_cons, take_of_cons h]
  simp [left]

theorem seen_left_take (b : Builder) : b.take.seen ++ b.take.left = b.seen ++ b.left := by
  rw [← seen_left_attach b]
  cases h : b.ahead with
  | nil => rw [take_of_nil h]
  | cons t ts =>
    have hs : b.take.seen = b.attach.seen ++ [t] := by
      simp [take_of_cons h, seen, Tree.tokensAll, Tree.tokens]
    rw [hs, left_take h]
    simp

theorem taken_togo_attach (b : Builder) :
    b.attach.taken + b.attach.togo = b.taken + b.togo := by
  simp [togo, left_eq b]
  omega

theorem taken_togo_take (b : Builder) : b.take.taken + b.take.togo = b.taken + b.togo := by
  rw [← taken_togo_attach b]
  cases h : b.ahead with
  | nil => rw [take_of_nil h]
  | cons t ts =>
    have ht : b.take.taken = b.attach.taken + 1 := by simp [take_of_cons h]
    have hl : b.attach.togo = b.take.togo + 1 := by simp [togo, left_take h]
    omega

theorem togo_attach_le (b : Builder) : b.attach.togo ≤ b.togo := by
  simp [togo, left_eq b]

theorem opened_moves_or_stays (b : Builder) :
    b.opened.togo < b.togo ∨ b.opened.togo = b.togo ∧ b.opened.ahead = b.ahead :=
  (Nat.lt_or_eq_of_le b.togo_attach_le).imp id fun h => ⟨h, rfl⟩

theorem togo_take_lt {b : Builder} (h : b.ahead ≠ []) : b.take.togo < b.togo := by
  obtain ⟨t, ts, ht⟩ := List.exists_cons_of_ne_nil h
  have hl : b.attach.togo = b.take.togo + 1 := by simp [togo, left_take ht]
  have := togo_attach_le b
  omega

@[simp] theorem left_report (message : String) (b : Builder) :
    (b.report message).left = b.left := rfl

@[simp] theorem seen_report (message : String) (b : Builder) :
    (b.report message).seen = b.seen := rfl

@[simp] theorem left_opened (b : Builder) : b.opened.left = b.attach.left := rfl

@[simp] theorem seen_opened (b : Builder) : b.opened.seen = [] := rfl

@[simp] theorem ahead_opened (b : Builder) : b.opened.ahead = b.ahead := rfl

@[simp] theorem left_closeNode (kind : NodeKind) (b inner : Builder) :
    (b.closeNode kind inner).left = inner.left := rfl

@[simp] theorem left_closeGroup (b inner : Builder) : (b.closeGroup inner).left = inner.left := rfl

@[simp] theorem left_wrap (kind : NodeKind) (b : Builder) : (b.wrap kind).left = b.left := rfl

theorem seen_closeNode (kind : NodeKind) (b inner : Builder) :
    (b.closeNode kind inner).seen = b.attach.seen ++ inner.seen := by
  simp [seen, closeNode, Tree.tokensAll, Tree.tokens]

theorem seen_closeGroup (b inner : Builder) :
    (b.closeGroup inner).seen = b.attach.seen ++ inner.seen := by
  simp [seen, closeGroup]

theorem seen_wrap (kind : NodeKind) (b : Builder) : (b.wrap kind).seen = b.seen := by
  simp [seen, wrap, Tree.tokensAll, Tree.tokens]

end Builder

namespace Step

variable {ρ : Type} {grammar : ρ → Step ρ}

inductive Runs (grammar : ρ → Step ρ) : Step ρ → Builder → Builder → Prop
  | done (b : Builder) : Runs grammar .done b b
  | take (b : Builder) : Runs grammar .take b b.take
  | report (message : String) (b : Builder) : Runs grammar (.report message) b (b.report message)
  | look {choose : List Token → Step ρ} {b b' : Builder} :
      Runs grammar (choose b.ahead) b b' → Runs grammar (.look choose) b b'
  | andThen {s t : Step ρ} {b m b' : Builder} :
      Runs grammar s b m → Runs grammar t m b' → Runs grammar (.andThen s t) b b'
  | node {kind : NodeKind} {s : Step ρ} {b inner : Builder} :
      Runs grammar s b.opened inner → Runs grammar (.node kind s) b (b.closeNode kind inner)
  | group {s : Step ρ} {b inner : Builder} :
      Runs grammar s b.opened inner → Runs grammar (.group s) b (b.closeGroup inner)
  | wrap {kind : NodeKind} {s : Step ρ} {b b' : Builder} :
      Runs grammar s b b' → Runs grammar (.wrap kind s) b (b'.wrap kind)
  | insistMoved {s recovery : Step ρ} {b tried : Builder} :
      Runs grammar s b tried → ¬ (tried.taken = b.taken ∧ tried.atEnd = false) →
      Runs grammar (.insist s recovery) b tried
  | insistStuck {s recovery : Step ρ} {b tried b' : Builder} :
      Runs grammar s b tried → tried.taken = b.taken ∧ tried.atEnd = false →
      Runs grammar recovery tried b' → Runs grammar (.insist s recovery) b b'
  | repeatStop {test : List Token → Bool} {s : Step ρ} {b : Builder} :
      test b.ahead = false → Runs grammar (.repeatWhile test s) b b
  | repeatTurn {test : List Token → Bool} {s : Step ρ} {b m b' : Builder} :
      test b.ahead = true → Runs grammar s b m → Runs grammar (.repeatWhile test s) m b' →
      Runs grammar (.repeatWhile test s) b b'
  | commaStop {test : List Token → Bool} {s : Step ρ} {b : Builder} :
      test b.ahead = false → Runs grammar (.commaList test s) b b
  | commaLast {test : List Token → Bool} {s : Step ρ} {b b' : Builder} :
      test b.ahead = true → Runs grammar s b b' → startsWith .comma b'.ahead = false →
      Runs grammar (.commaList test s) b b'
  | commaMore {test : List Token → Bool} {s : Step ρ} {b m b' : Builder} :
      test b.ahead = true → Runs grammar s b m → startsWith .comma m.ahead = true →
      Runs grammar (.commaList test s) m.take b' → Runs grammar (.commaList test s) b b'
  | call {rule : ρ} {b b' : Builder} : Runs grammar (grammar rule) b b' →
      Runs grammar (.call rule) b b'

namespace Runs

theorem unique {s : Step ρ} {b b' b'' : Builder} (h : Runs grammar s b b')
    (h' : Runs grammar s b b'') : b' = b'' := by
  induction h generalizing b'' with
  | done | take | report => cases h'; rfl
  | look _ ih => cases h' with | look h' => exact ih h'
  | andThen _ _ ihs iht =>
    cases h' with
    | andThen hs ht =>
      obtain rfl := ihs hs
      exact iht ht
  | node _ ih => cases h' with | node h' => rw [ih h']
  | group _ ih => cases h' with | group h' => rw [ih h']
  | wrap _ ih => cases h' with | wrap h' => rw [ih h']
  | insistMoved _ hm ih =>
    cases h' with
    | insistMoved hs _ => exact ih hs
    | insistStuck hs hn _ =>
      obtain rfl := ih hs
      exact absurd hn hm
  | insistStuck _ hn _ ihs ihr =>
    cases h' with
    | insistMoved hs hm =>
      obtain rfl := ihs hs
      exact absurd hn hm
    | insistStuck hs _ hr =>
      obtain rfl := ihs hs
      exact ihr hr
  | repeatStop ht =>
    cases h' with
    | repeatStop => rfl
    | repeatTurn ht' => simp [ht] at ht'
  | repeatTurn ht _ _ ihs ihr =>
    cases h' with
    | repeatStop ht' => simp [ht] at ht'
    | repeatTurn _ hs hr =>
      obtain rfl := ihs hs
      exact ihr hr
  | commaStop ht =>
    cases h' with
    | commaStop => rfl
    | commaLast ht' | commaMore ht' => simp [ht] at ht'
  | commaLast ht _ hc ih =>
    cases h' with
    | commaStop ht' => simp [ht] at ht'
    | commaLast _ hs _ => exact ih hs
    | commaMore _ hs hc' _ =>
      obtain rfl := ih hs
      simp [hc] at hc'
  | commaMore ht _ hc _ ihs ihr =>
    cases h' with
    | commaStop ht' => simp [ht] at ht'
    | commaLast _ hs hc' =>
      obtain rfl := ihs hs
      simp [hc] at hc'
    | commaMore _ hs _ hr =>
      obtain rfl := ihs hs
      exact ihr hr
  | call _ ih => cases h' with | call h' => exact ih h'

theorem conserves {s : Step ρ} {b b' : Builder} (h : Runs grammar s b b') :
    b'.seen ++ b'.left = b.seen ++ b.left := by
  induction h with
  | done | repeatStop | commaStop | report => rfl
  | take b => exact b.seen_left_take
  | look _ ih | call _ ih => exact ih
  | andThen _ _ ihs iht => rw [iht, ihs]
  | @node kind s b inner _ ih =>
    rw [Builder.seen_closeNode, Builder.left_closeNode, List.append_assoc, ih,
      ← b.seen_left_attach]
    simp
  | @group s b inner _ ih =>
    rw [Builder.seen_closeGroup, Builder.left_closeGroup, List.append_assoc, ih,
      ← b.seen_left_attach]
    simp
  | wrap _ ih => rw [Builder.seen_wrap, Builder.left_wrap, ih]
  | insistMoved _ _ ih | commaLast _ _ _ ih => exact ih
  | insistStuck _ _ _ ihs ihr => rw [ihr, ihs]
  | repeatTurn _ _ _ ihs ihr => rw [ihr, ihs]
  | commaMore _ _ _ _ ihs ihr => rw [ihr, Builder.seen_left_take, ihs]

theorem counts {s : Step ρ} {b b' : Builder} (h : Runs grammar s b b') :
    b'.taken + b'.togo = b.taken + b.togo := by
  induction h with
  | done | repeatStop | commaStop | report => rfl
  | take b => exact b.taken_togo_take
  | look _ ih | call _ ih | wrap _ ih => exact ih
  | andThen _ _ ihs iht => rw [iht, ihs]
  | @node _ _ b _ _ ih | @group _ b _ _ ih => exact ih.trans b.taken_togo_attach
  | insistMoved _ _ ih | commaLast _ _ _ ih => exact ih
  | insistStuck _ _ _ ihs ihr => rw [ihr, ihs]
  | repeatTurn _ _ _ ihs ihr => rw [ihr, ihs]
  | commaMore _ _ _ _ ihs ihr => rw [ihr, Builder.taken_togo_take, ihs]

theorem moves_or_stays {s : Step ρ} {b b' : Builder} (h : Runs grammar s b b') :
    b'.togo < b.togo ∨ b'.togo = b.togo ∧ b'.ahead = b.ahead := by
  have trans {x y z : Builder} (hxy : y.togo < x.togo ∨ y.togo = x.togo ∧ y.ahead = x.ahead)
      (hyz : z.togo < y.togo ∨ z.togo = y.togo ∧ z.ahead = y.ahead) :
      z.togo < x.togo ∨ z.togo = x.togo ∧ z.ahead = x.ahead := by
    rcases hxy with hx | ⟨hx, ha⟩ <;> rcases hyz with hy | ⟨hy, hb⟩
    · exact .inl (by omega)
    · exact .inl (by omega)
    · exact .inl (by omega)
    · exact .inr ⟨by omega, hb.trans ha⟩
  have taken (x : Builder) :
      x.take.togo < x.togo ∨ x.take.togo = x.togo ∧ x.take.ahead = x.ahead := by
    by_cases hx : x.ahead = []
    · rw [Builder.take_of_nil hx]
      exact x.opened_moves_or_stays
    · exact .inl (Builder.togo_take_lt hx)
  induction h with
  | done | repeatStop | commaStop | report => exact .inr ⟨rfl, rfl⟩
  | take b => exact taken b
  | look _ ih | call _ ih | wrap _ ih => exact ih
  | andThen _ _ ihs iht => exact trans ihs iht
  | node _ ih | group _ ih => exact trans (Builder.opened_moves_or_stays _) ih
  | insistMoved _ _ ih | commaLast _ _ _ ih => exact ih
  | insistStuck _ _ _ ihs ihr => exact trans ihs ihr
  | repeatTurn _ _ _ ihs ihr => exact trans ihs ihr
  | commaMore _ _ _ _ ihs ihr => exact trans (trans ihs (taken _)) ihr

theorem togo_le {s : Step ρ} {b b' : Builder} (h : Runs grammar s b b') : b'.togo ≤ b.togo := by
  rcases h.moves_or_stays with h | h <;> omega

theorem seen_prefix {s : Step ρ} {b b' : Builder} (h : Runs grammar s b b') :
    b.seen <+: b'.seen := by
  have hkept := h.conserves
  have hlength : b.seen.length ≤ b'.seen.length := by
    have hsum := congrArg List.length hkept
    have hleft : b'.left.length ≤ b.left.length := h.togo_le
    simp only [List.length_append] at hsum
    omega
  refine List.prefix_of_prefix_length_le ?_ (List.prefix_append b'.seen b'.left) hlength
  rw [hkept]
  exact List.prefix_append _ _

theorem taken_eq_iff {s : Step ρ} {b b' : Builder} (h : Runs grammar s b b') :
    b'.taken = b.taken ↔ b'.togo = b.togo := by
  have := h.counts
  omega

end Runs

end Step

end CrossReference.Source
