import CrossReference.Proofs.Reading.Edges

namespace CrossReference.Source

open Lookahead

namespace Step

variable {ρ : Type} {grammar : ρ → Step ρ} {s t : Step ρ} {test : List Token → Bool}
  {ts us : List Token}

def Clears (grammar : ρ → Step ρ) (s : Step ρ) (ts us : List Token) : Prop :=
  ∃ b b', Runs grammar s b b' ∧ b'.errors = b.errors ∧ b.ahead = ts ∧ b'.ahead = us

theorem Runs.clears {b b' : Builder} (h : Runs grammar s b b') (herrors : b'.errors = b.errors) :
    Clears grammar s b.ahead b'.ahead :=
  ⟨b, b', h, herrors, rfl, rfl⟩

namespace Clears

theorem suffix (h : Clears grammar s ts us) : us <:+ ts := by
  obtain ⟨b, b', hrun, -, rfl, rfl⟩ := h
  exact hrun.ahead_suffix

theorem done (h : Clears grammar .done ts us) : us = ts := by
  obtain ⟨b, b', hrun, -, rfl, rfl⟩ := h
  cases hrun
  rfl

theorem take (h : Clears grammar .take ts us) : us = ts.tail := by
  obtain ⟨b, b', hrun, -, rfl, rfl⟩ := h
  cases hrun
  exact b.ahead_take

theorem not_report {message : String} : ¬ Clears grammar (.report message) ts us := by
  rintro ⟨b, b', hrun, herrors, -, -⟩
  cases hrun
  exact absurd (congrArg List.length herrors) (by simp [Builder.report])

theorem look {choose : List Token → Step ρ} (h : Clears grammar (.look choose) ts us) :
    Clears grammar (choose ts) ts us := by
  obtain ⟨b, b', hrun, herrors, rfl, rfl⟩ := h
  cases hrun with
  | look hrun => exact hrun.clears herrors

theorem andThen (h : Clears grammar (.andThen s t) ts us) :
    ∃ ms, Clears grammar s ts ms ∧ Clears grammar t ms us := by
  obtain ⟨b, b', hrun, herrors, rfl, rfl⟩ := h
  cases hrun with
  | andThen hs ht =>
    obtain ⟨hm, hb'⟩ := hs.no_errors_left ht herrors
    exact ⟨_, hs.clears hm, ht.clears hb'⟩

theorem node {kind : NodeKind} (h : Clears grammar (.node kind s) ts us) :
    Clears grammar s ts us := by
  obtain ⟨b, b', hrun, herrors, rfl, rfl⟩ := h
  cases hrun with
  | node hrun => exact hrun.clears herrors

theorem call {rule : ρ} (h : Clears grammar (.call rule) ts us) :
    Clears grammar (grammar rule) ts us := by
  obtain ⟨b, b', hrun, herrors, rfl, rfl⟩ := h
  cases hrun with
  | call hrun => exact hrun.clears herrors

theorem given (h : Clears grammar (given test s) ts us) :
    test ts = true ∧ Clears grammar s ts us ∨ test ts = false ∧ us = ts := by
  have hchosen := h.look
  cases htest : test ts with
  | true => exact .inl ⟨rfl, by simpa [htest] using hchosen⟩
  | false =>
    rw [htest] at hchosen
    exact .inr ⟨rfl, hchosen.done⟩

theorem takeMany {n : Nat} (h : Clears grammar (takeMany n) ts us) : us = ts.drop n := by
  induction n generalizing ts with
  | zero => exact h.done
  | succ n ih =>
    obtain ⟨ms, htake, hrest⟩ := h.andThen
    rw [ih hrest, htake.take, List.drop_tail]

theorem repeatWhile {kept : List Token → Prop}
    (hturn : ∀ ts ms, kept ts → test ts = true → Clears grammar s ts ms → kept ms)
    (hstart : kept ts) (h : Clears grammar (.repeatWhile test s) ts us) :
    kept us ∧ test us = false := by
  obtain ⟨b, b', hrun, herrors, rfl, rfl⟩ := h
  generalize hloop : Step.repeatWhile test s = loop at hrun
  induction hrun with
  | repeatStop htest =>
    cases hloop
    exact ⟨hstart, htest⟩
  | repeatTurn htest hs hrest _ ih =>
    cases hloop
    obtain ⟨hm, hb'⟩ := hs.no_errors_left hrest herrors
    exact ih hb' (hturn _ _ hstart htest (hs.clears hm)) rfl
  | _ => cases hloop

theorem commaList {kept ends : List Token → Prop}
    (hturn : ∀ ts ms, kept ts → test ts = true → Clears grammar s ts ms →
      if startsWith .comma ms then kept ms.tail else ends ms)
    (hstop : ∀ ts, kept ts → test ts = false → ends ts)
    (hstart : kept ts) (h : Clears grammar (.commaList test s) ts us) : ends us := by
  obtain ⟨b, b', hrun, herrors, rfl, rfl⟩ := h
  generalize hloop : Step.commaList test s = loop at hrun
  induction hrun with
  | commaStop htest =>
    cases hloop
    exact hstop _ hstart htest
  | commaLast htest hs hcomma =>
    cases hloop
    simpa [hcomma] using hturn _ _ hstart htest (hs.clears herrors)
  | @commaMore _ _ b m b' htest hs hcomma hrest _ ih =>
    cases hloop
    obtain ⟨hm, hb'⟩ := hs.no_errors_left (.andThen (.take m) hrest) herrors
    have hkept := hturn _ _ hstart htest (hs.clears hm)
    rw [if_pos hcomma, ← m.ahead_take] at hkept
    exact ih (hb'.trans m.errors_take.symm) hkept rfl
  | _ => cases hloop

end Clears

end Step

namespace Grammar

open Step

variable {ts us : List Token} {kind : TokenKind}

theorem clears_eat (h : Clears body (eat kind) ts us) :
    us = if startsWith kind ts then ts.tail else ts := by
  rcases h.given with ⟨htest, h⟩ | ⟨htest, rfl⟩
  · rw [if_pos htest, h.take]
  · simp [htest]

theorem clears_expect (h : Clears body (expect kind) ts us) :
    startsWith kind ts = true ∧ us = ts.tail := by
  have hchosen := h.look
  cases htest : startsWith kind ts with
  | true =>
    rw [htest] at hchosen
    exact ⟨rfl, hchosen.take⟩
  | false =>
    rw [htest] at hchosen
    exact absurd hchosen Clears.not_report

theorem clears_takeGroup (h : Clears body takeGroup ts us) :
    us = ts.drop (groupLength 0 ts) :=
  h.look.takeMany

end Grammar

end CrossReference.Source
