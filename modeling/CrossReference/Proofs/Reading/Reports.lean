import CrossReference.Proofs.Reading.Debt
import CrossReference.Proofs.Reading.Lossless

namespace CrossReference.Source

def TokenStarts (ts : List Token) (offset : Nat) : Prop :=
  ∃ before t after, ts = before ++ t :: after ∧ t.isTrivia = false ∧ offset = byteSize before

theorem TokenStarts.cons {ts : List Token} {offset : Nat} (t : Token) (h : TokenStarts ts offset) :
    TokenStarts (t :: ts) (t.size + offset) := by
  obtain ⟨before, u, after, rfl, hu, rfl⟩ := h
  exact ⟨t :: before, u, after, rfl, hu, rfl⟩

theorem startOf_cases (ts : List Token) (i : Nat) :
    TokenStarts ts (startOf ts i) ∨ startOf ts i = byteSize ts := by
  induction ts generalizing i with
  | nil => exact .inr rfl
  | cons t ts ih =>
    have later (j : Nat) : TokenStarts (t :: ts) (t.size + startOf ts j) ∨
        t.size + startOf ts j = byteSize (t :: ts) :=
      (ih j).imp (·.cons t) fun h => by rw [byteSize_cons, h]
    cases ht : t.isTrivia with
    | true => simpa only [startOf, ht, if_true] using later i
    | false =>
      cases i with
      | zero => exact .inl ⟨[], t, ts, rfl, ht, by simp [startOf, ht]⟩
      | succ i => simpa only [startOf, ht, Bool.false_eq_true, if_false] using later i

namespace Builder

structure Orderly (ts : List Token) (b : Builder) : Prop where
  stands : ∃ i fresh, b.Stands ts i fresh
  sorted : b.errors.Pairwise fun later earlier => earlier.offset ≤ later.offset
  behind : ∀ e ∈ b.errors, e.offset ≤ b.place
  placed : ∀ e ∈ b.errors, ∃ i, e.offset = startOf ts i

namespace Orderly

variable {ts : List Token} {b b' : Builder}

theorem built (trees : List Tree) (h : b.Orderly ts) : Orderly ts { b with built := trees } := by
  obtain ⟨i, fresh, hb⟩ := h.stands
  exact ⟨⟨i, fresh, hb.same rfl rfl rfl rfl⟩, h.sorted, h.behind, h.placed⟩

theorem opened (h : b.Orderly ts) : b.opened.Orderly ts :=
  ⟨stands_opened h.stands, h.sorted, h.behind, h.placed⟩

theorem take (h : b.Orderly ts) : b.take.Orderly ts := by
  have herrors := b.errors_take
  refine ⟨stands_take h.stands, herrors ▸ h.sorted, fun e he => ?_, herrors ▸ h.placed⟩
  exact Nat.le_trans (h.behind e (herrors ▸ he)) (Later.take b).place

theorem report (message : String) (h : b.Orderly ts) : (b.report message).Orderly ts := by
  obtain ⟨i, fresh, hb⟩ := h.stands
  refine ⟨⟨i, fresh, hb.same rfl rfl rfl rfl⟩, List.pairwise_cons.2 ⟨h.behind, h.sorted⟩, ?_, ?_⟩
  · exact List.forall_mem_cons.2 ⟨Nat.le_refl _, h.behind⟩
  · exact List.forall_mem_cons.2 ⟨⟨i, hb.place⟩, h.placed⟩

end Orderly

theorem orderly_ofTokens (ts : List Token) : (ofTokens ts).Orderly ts :=
  ⟨⟨0, true, stands_ofTokens ts⟩, .nil, by simp [ofTokens], by simp [ofTokens]⟩

end Builder

theorem Step.Runs.orderly {ρ : Type} {grammar : ρ → Step ρ} {s : Step ρ} {b b' : Builder}
    {ts : List Token} (h : Runs grammar s b b') (hb : b.Orderly ts) : b'.Orderly ts := by
  induction h with
  | done | repeatStop | commaStop => exact hb
  | take => exact hb.take
  | report message => exact hb.report message
  | look _ ih | call _ ih => exact ih hb
  | andThen _ _ ihs iht => exact iht (ihs hb)
  | node _ ih | group _ ih => exact (ih hb.opened).built _
  | wrap _ ih => exact (ih hb).built _
  | insistMoved _ _ ih | commaLast _ _ _ ih => exact ih hb
  | insistStuck _ _ _ ihs ihr => exact ihr (ihs hb)
  | repeatTurn _ _ _ ihs ihr => exact ihr (ihs hb)
  | commaMore _ _ _ _ ihs ihr => exact ihr (ihs hb).take

theorem byteSize_scan (text : String) : byteSize (Token.scan text) = text.utf8ByteSize := by
  rw [← utf8ByteSize_spelling, Token.spelling_scan]

theorem parse_errors_in_order (text : String) :
    ((parse text).errors.Pairwise fun earlier later => earlier.offset ≤ later.offset) ∧
    ∀ e ∈ (parse text).errors,
      TokenStarts (Token.scan text) e.offset ∨ e.offset = text.utf8ByteSize := by
  have horderly := (Parse.runs_file (Token.scan text)).orderly (Builder.orderly_ofTokens _)
  rw [parse, Parse.ofTokens_eq]
  refine ⟨List.pairwise_reverse.2 horderly.sorted, fun e he => ?_⟩
  obtain ⟨i, hi⟩ := horderly.placed e (List.mem_reverse.1 he)
  rw [hi, ← byteSize_scan]
  exact startOf_cases _ i

end CrossReference.Source
