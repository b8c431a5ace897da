import Mathlib.Data.List.Forall2
import CrossReference.Proofs.Reading.Frame

/-!
How far a file is read, by its significant tokens. Two files with the same significant tokens are
read side by side while both stand at the same token and have reported the same.
-/

namespace CrossReference.Source

open Lookahead

def gapBefore (ts : List Token) (i : Nat) : List Token := (leadingTrivia ts :: gapsOf ts).getD i []

/-- Where the significant token `i` starts; the end of the file when there is no such token. -/
def startOf : List Token → Nat → Nat
  | [], _ => 0
  | t :: ts, i =>
    if t.isTrivia then t.size + startOf ts i
    else match i with
      | 0 => 0
      | i + 1 => t.size + startOf ts i

theorem startOf_add_byteSize (ts : List Token) (i : Nat) :
    startOf ts i + byteSize (weave ((significant ts).drop i) ((gapsOf ts).drop i)) =
      byteSize ts := by
  induction ts generalizing i with
  | nil => simp [startOf, significant, weave]
  | cons t ts ih =>
    cases ht : t.isTrivia with
    | true => simpa [startOf, significant, gapsOf, ht, Nat.add_assoc] using ih i
    | false =>
      cases i with
      | zero =>
        have hweave := congrArg byteSize (leadingTrivia_append_weave ts)
        simpa [startOf, significant, gapsOf, ht, weave] using hweave
      | succ i => simpa [startOf, significant, gapsOf, ht, Nat.add_assoc] using ih i

theorem startOf_lt {ts : List Token} (hts : ∀ t ∈ ts, t.text ≠ "") {i j : Nat} (hij : i < j)
    (hi : i < (significant ts).length) : startOf ts i < startOf ts j := by
  induction ts generalizing i j with
  | nil => simp [significant] at hi
  | cons t ts ih =>
    obtain ⟨ht, hts⟩ := List.forall_mem_cons.1 hts
    cases htrivia : t.isTrivia with
    | true =>
      have hi : i < (significant ts).length := by simpa [significant, htrivia] using hi
      simpa [startOf, htrivia] using ih hts hij hi
    | false =>
      obtain ⟨j, rfl⟩ := Nat.exists_eq_add_one_of_ne_zero (Nat.ne_zero_of_lt hij)
      cases i with
      | zero =>
        have hsize := Token.size_pos ht
        simp only [startOf, htrivia, Bool.false_eq_true, if_false]
        omega
      | succ i =>
        have hi : i < (significant ts).length := by simpa [significant, htrivia] using hi
        simpa [startOf, htrivia] using ih hts (Nat.lt_of_succ_lt_succ hij) hi

theorem startOf_inj {ts : List Token} (hts : ∀ t ∈ ts, t.text ≠ "") {i j : Nat}
    (hi : i < (significant ts).length) (h : startOf ts i = startOf ts j) : i = j := by
  rcases Nat.lt_trichotomy i j with hij | hij | hij
  · have := startOf_lt hts hij hi
    omega
  · exact hij
  · have := startOf_lt hts hij (Nat.lt_trans hij hi)
    omega

def ParseError.Corresponds (ts us : List Token) (e f : ParseError) : Prop :=
  e.message = f.message ∧ ∃ i, e.offset = startOf ts i ∧ f.offset = startOf us i

theorem ParseError.Corresponds.symm {ts us : List Token} {e f : ParseError}
    (h : e.Corresponds ts us f) : f.Corresponds us ts e := by
  obtain ⟨hmessage, i, he, hf⟩ := h
  exact ⟨hmessage.symm, i, hf, he⟩

namespace Builder

/-- The builder has read `ts` up to the significant token `i`. Nothing of the trivia in front of it
is in a tree while the builder is `fresh` there, and all of it afterwards. -/
structure Stands (ts : List Token) (i : Nat) (fresh : Bool) (b : Builder) : Prop where
  ahead : b.ahead = (significant ts).drop i
  gaps : b.gaps = (gapsOf ts).drop i
  pending : b.pending = if fresh then gapBefore ts i else []
  extent : b.extent = byteSize ts

namespace Stands

variable {ts : List Token} {i : Nat} {fresh : Bool} {b b' : Builder}

theorem place (h : b.Stands ts i fresh) : b.place = startOf ts i := by
  have hstart := startOf_add_byteSize ts i
  have hextent := h.extent
  rw [Builder.extent, h.ahead, h.gaps] at hextent
  omega

theorem same (h : b.Stands ts i fresh) (hp : b'.pending = b.pending) (ha : b'.ahead = b.ahead)
    (hg : b'.gaps = b.gaps) (hplace : b'.place = b.place) : b'.Stands ts i fresh := by
  refine ⟨ha.trans h.ahead, hg.trans h.gaps, hp.trans h.pending, ?_⟩
  rw [← h.extent, Builder.extent, Builder.extent, ha, hg, hplace]

theorem attach (h : b.Stands ts i fresh) : b.attach.Stands ts i false :=
  ⟨h.ahead, h.gaps, rfl, h.extent⟩

theorem take (h : b.Stands ts i fresh) (hahead : b.ahead ≠ []) : b.take.Stands ts (i + 1) true := by
  obtain ⟨t, rest, hb⟩ := List.exists_cons_of_ne_nil hahead
  have hrest : (significant ts).drop (i + 1) = rest := by
    rw [← List.tail_drop, ← h.ahead, hb, List.tail_cons]
  have hgaps : b.gaps.tail = (gapsOf ts).drop (i + 1) := by rw [h.gaps, List.tail_drop]
  have hgap : b.gaps.headD [] = gapBefore ts (i + 1) := by
    simp [h.gaps, gapBefore, List.headD_eq_head?_getD, List.getD_eq_getElem?_getD]
  rw [take_of_cons hb]
  exact ⟨hrest.symm, hgaps, hgap, by rw [← take_of_cons hb, b.extent_take, h.extent]⟩

theorem index_eq {j : Nat} (h : b.Stands ts i fresh) (hj : b.ahead = (significant ts).drop j)
    (hahead : b.ahead ≠ []) : j = i := by
  have hlength := congrArg List.length h.ahead
  have hlength' := congrArg List.length hj
  have := List.length_pos_iff.2 hahead
  simp only [List.length_drop] at hlength hlength'
  omega

end Stands

theorem stands_ofTokens (ts : List Token) : (ofTokens ts).Stands ts 0 true := by
  have hextent := congrArg byteSize (leadingTrivia_append_weave ts)
  rw [byteSize_append] at hextent
  exact ⟨rfl, rfl, rfl, hextent⟩

theorem stands_opened {ts : List Token} {b : Builder} (h : ∃ i fresh, b.Stands ts i fresh) :
    ∃ i fresh, b.opened.Stands ts i fresh := by
  obtain ⟨i, _, hb⟩ := h
  exact ⟨i, false, hb.attach.same rfl rfl rfl rfl⟩

theorem stands_take {ts : List Token} {b : Builder} (h : ∃ i fresh, b.Stands ts i fresh) :
    ∃ i fresh, b.take.Stands ts i fresh := by
  obtain ⟨i, _, hb⟩ := h
  by_cases hahead : b.ahead = []
  · rw [take_of_nil hahead]
    exact ⟨i, false, hb.attach⟩
  · exact ⟨i + 1, true, hb.take hahead⟩

structure Abreast (ts us : List Token) (b c : Builder) : Prop where
  stands : ∃ i fresh, b.Stands ts i fresh ∧ c.Stands us i fresh
  errors : List.Forall₂ (ParseError.Corresponds ts us) b.errors c.errors

namespace Abreast

variable {ts us : List Token} {b c b' c' : Builder}

theorem ahead (hsame : significant ts = significant us) (h : b.Abreast ts us c) :
    c.ahead = b.ahead := by
  obtain ⟨i, fresh, hb, hc⟩ := h.stands
  rw [hb.ahead, hc.ahead, hsame]

theorem symm (h : b.Abreast ts us c) : c.Abreast us ts b := by
  obtain ⟨i, fresh, hb, hc⟩ := h.stands
  exact ⟨⟨i, fresh, hc, hb⟩, h.errors.flip.imp fun _ _ he => ParseError.Corresponds.symm he⟩

theorem attach (h : b.Abreast ts us c) : b.attach.Abreast ts us c.attach := by
  obtain ⟨i, fresh, hb, hc⟩ := h.stands
  exact ⟨⟨i, false, hb.attach, hc.attach⟩, h.errors⟩

theorem take (hsame : significant ts = significant us) (h : b.Abreast ts us c) :
    b.take.Abreast ts us c.take := by
  have hc := h.ahead hsame
  by_cases hb : b.ahead = []
  · rw [take_of_nil hb, take_of_nil (hc.trans hb)]
    exact h.attach
  · obtain ⟨i, fresh, hi, hi'⟩ := h.stands
    refine ⟨⟨i + 1, true, hi.take hb, hi'.take (hc ▸ hb)⟩, ?_⟩
    rw [b.errors_take, c.errors_take]
    exact h.errors

theorem report (message : String) (h : b.Abreast ts us c) :
    (b.report message).Abreast ts us (c.report message) := by
  obtain ⟨i, fresh, hb, hc⟩ := h.stands
  exact ⟨⟨i, fresh, hb.same rfl rfl rfl rfl, hc.same rfl rfl rfl rfl⟩,
    .cons ⟨rfl, i, hb.place, hc.place⟩ h.errors⟩

theorem built (trees trees' : List Tree) (h : b.Abreast ts us c) :
    Abreast ts us { b with built := trees } { c with built := trees' } := by
  obtain ⟨i, fresh, hb, hc⟩ := h.stands
  exact ⟨⟨i, fresh, hb.same rfl rfl rfl rfl, hc.same rfl rfl rfl rfl⟩, h.errors⟩

end Abreast

theorem abreast_ofTokens (ts us : List Token) : (ofTokens ts).Abreast ts us (ofTokens us) :=
  ⟨⟨0, true, stands_ofTokens ts, stands_ofTokens us⟩, .nil⟩

end Builder

end CrossReference.Source
