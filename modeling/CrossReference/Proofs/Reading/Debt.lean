import CrossReference.Proofs.Reading.Patience
import CrossReference.Proofs.Reading.Recovery

/-!
Two readings of the same significant tokens that part never come together again. Where a body stalls
in one of them only, the other reports that and skips something; the first owes that report until it
takes a token, reports something else or fails on the same rule once more.
-/

namespace CrossReference.Source

open Lookahead

theorem forall₂_left_of_append {α β : Type} {R : α → β → Prop} {xs as : List α} {ys bs : List β}
    (h : List.Forall₂ R (xs ++ as) (ys ++ bs)) (hlength : as.length = bs.length) :
    List.Forall₂ R xs ys := by
  have hxs : xs.length = ys.length := by
    have := h.length_eq
    simp only [List.length_append] at this
    omega
  have htake := List.forall₂_take_append _ _ _ h
  rwa [← hxs, List.take_left' rfl] at htake

theorem exists_right_of_mem {α β : Type} {R : α → β → Prop} {xs : List α} {ys : List β}
    (h : List.Forall₂ R xs ys) {x : α} (hx : x ∈ xs) : ∃ y ∈ ys, R x y := by
  induction h with
  | nil => simp at hx
  | cons hxy _ ih =>
    rcases List.mem_cons.1 hx with rfl | hx
    · exact ⟨_, List.mem_cons_self, hxy⟩
    · obtain ⟨y, hy, hR⟩ := ih hx
      exact ⟨y, List.mem_cons_of_mem _ hy, hR⟩

section Corresponds

variable {ts us : List Token} {e f : ParseError} {i : Nat}

theorem ParseError.Corresponds.offset_left (hus : ∀ t ∈ us, t.text ≠ "")
    (hi : i < (significant us).length) (h : e.Corresponds ts us f) (hf : f.offset = startOf us i) :
    e.offset = startOf ts i := by
  obtain ⟨-, j, he, hfj⟩ := h
  rw [he, startOf_inj hus hi (hf.symm.trans hfj)]

theorem ParseError.Corresponds.offset_right (hts : ∀ t ∈ ts, t.text ≠ "")
    (hi : i < (significant ts).length) (h : e.Corresponds ts us f) (he : e.offset = startOf ts i) :
    f.offset = startOf us i :=
  h.symm.offset_left hts hi he

end Corresponds

namespace Builder

structure Later (b b' : Builder) : Prop where
  place : b.place ≤ b'.place
  errors : ∃ es, b'.errors = es ++ b.errors ∧ ∀ e ∈ es, b.place ≤ e.offset ∧ e.offset ≤ b'.place

namespace Later

variable {b m b' : Builder}

theorem of_eq (hplace : b'.place = b.place) (herrors : b'.errors = b.errors) : b.Later b' :=
  ⟨Nat.le_of_eq hplace.symm, [], herrors, by simp⟩

theorem trans (h : b.Later m) (h' : m.Later b') : b.Later b' := by
  obtain ⟨hm, es, hes, hplaces⟩ := h
  obtain ⟨hb', fs, hfs, hplaces'⟩ := h'
  refine ⟨Nat.le_trans hm hb', fs ++ es, by rw [hfs, hes, List.append_assoc], fun e he => ?_⟩
  rcases List.mem_append.1 he with he | he
  · have := hplaces' e he
    omega
  · have := hplaces e he
    omega

theorem take (b : Builder) : b.Later b.take := by
  refine ⟨?_, [], b.errors_take, by simp⟩
  cases hb : b.ahead with
  | nil => rw [take_of_nil hb]; exact Nat.le_refl _
  | cons t ts =>
    rw [take_of_cons hb]
    exact Nat.le_trans (Nat.le_add_right _ _) (Nat.le_add_right _ _)

theorem report (message : String) (b : Builder) : b.Later (b.report message) :=
  ⟨Nat.le_refl _, [⟨message, b.place⟩], rfl, by simp [Builder.report]⟩

end Later

end Builder

namespace Step

theorem Runs.later {ρ : Type} {grammar : ρ → Step ρ} {s : Step ρ} {b b' : Builder}
    (h : Runs grammar s b b') : b.Later b' := by
  induction h with
  | done | repeatStop | commaStop => exact .of_eq rfl rfl
  | take b => exact .take b
  | report message b => exact .report message b
  | look _ ih | call _ ih => exact ih
  | andThen _ _ ihs iht => exact ihs.trans iht
  | wrap _ ih => exact ih.trans (.of_eq rfl rfl)
  | @node _ _ b _ _ ih | @group _ b _ _ ih =>
    have hopened : b.Later b.opened := .of_eq rfl rfl
    exact (hopened.trans ih).trans (.of_eq rfl rfl)
  | insistMoved _ _ ih | commaLast _ _ _ ih => exact ih
  | insistStuck _ _ _ ihs ihr => exact ihs.trans ihr
  | repeatTurn _ _ _ ihs ihr => exact ihs.trans ihr
  | commaMore _ _ _ _ ihs ihr => exact ihs.trans (.trans (.take _) ihr)

end Step

namespace Builder

section Parting

variable {ts us : List Token} {rule : Rule} {message : String} {i : Nat} {b c b' c' : Builder}

/-- Whatever the two report from here on, their reports do not correspond. -/
def Parted (ts us : List Token) (b c : Builder) : Prop :=
  ∀ es fs, (∀ e ∈ es, b.place ≤ e.offset) → (∀ f ∈ fs, c.place ≤ f.offset) →
    ¬ List.Forall₂ (ParseError.Corresponds ts us) (es ++ b.errors) (fs ++ c.errors)

theorem Parted.symm (h : b.Parted ts us c) : c.Parted us ts b :=
  fun es fs hes hfs hall =>
    h fs es hfs hes (hall.flip.imp fun _ _ he => ParseError.Corresponds.symm he)

theorem Parted.later (h : b.Parted ts us c) (hb : b.Later b') (hc : c.Later c') :
    b'.Parted ts us c' := by
  obtain ⟨hplace, gs, hgs, hoffsets⟩ := hb
  obtain ⟨hplace', ks, hks, hoffsets'⟩ := hc
  intro es fs hes hfs hall
  rw [hgs, hks, ← List.append_assoc, ← List.append_assoc] at hall
  refine h _ _ (fun e he => ?_) (fun f hf => ?_) hall
  · rcases List.mem_append.1 he with he | he
    · exact Nat.le_trans hplace (hes e he)
    · exact (hoffsets e he).1
  · rcases List.mem_append.1 hf with hf | hf
    · exact Nat.le_trans hplace' (hfs f hf)
    · exact (hoffsets' f hf).1

/-- The first reading has the rule stall before the significant token `i`; the second one reported
`message` there and went on. -/
structure Owes (ts us : List Token) (rule : Rule) (message : String) (i : Nat) (b c : Builder) :
    Prop where
  stands : b.Stands ts i false
  ahead : b.ahead ≠ []
  balks : ∃ x y, Step.Runs Grammar.body (.call rule) x y ∧ x.ahead = b.ahead ∧ y.ahead = b.ahead
  errors : ∃ fs es, c.errors = fs ++ ⟨message, startOf us i⟩ :: es ∧
    List.Forall₂ (ParseError.Corresponds ts us) b.errors es ∧ ∀ f ∈ fs, startOf us i < f.offset
  place : startOf us i < c.place

namespace Owes

theorem later (h : b.Owes ts us rule message i c) (hc : c.Later c') :
    b.Owes ts us rule message i c' := by
  obtain ⟨hplace, gs, hgs, hoffsets⟩ := hc
  obtain ⟨fs, es, hcerrors, hes, hfs⟩ := h.errors
  have hpast := h.place
  refine ⟨h.stands, h.ahead, h.balks, ⟨gs ++ fs, es, ?_, hes, ?_⟩, Nat.lt_of_lt_of_le hpast hplace⟩
  · rw [hgs, hcerrors, List.append_assoc]
  · intro f hf
    rcases List.mem_append.1 hf with hf | hf
    · exact Nat.lt_of_lt_of_le hpast (hoffsets f hf).1
    · exact hfs f hf

theorem index_lt (h : b.Owes ts us rule message i c) : i < (significant ts).length := by
  have hlength := congrArg List.length h.stands.ahead
  have := List.length_pos_iff.2 h.ahead
  simp only [List.length_drop] at hlength
  omega

theorem matched (h : b.Owes ts us rule message i c) {es fs : List ParseError}
    (hfs : ∀ f ∈ fs, c.place ≤ f.offset)
    (hall : List.Forall₂ (ParseError.Corresponds ts us) (es ++ b.errors) (fs ++ c.errors)) :
    ∃ gs e ks, es = gs ++ [e] ∧ e.Corresponds ts us ⟨message, startOf us i⟩ ∧
      List.Forall₂ (ParseError.Corresponds ts us) gs ks ∧ ∀ k ∈ ks, startOf us i < k.offset := by
  obtain ⟨fs', es', hcerrors, hes', hfs'⟩ := h.errors
  have hsplit : fs ++ c.errors = (fs ++ fs' ++ [⟨message, startOf us i⟩]) ++ es' := by
    rw [hcerrors]
    simp
  rw [hsplit] at hall
  have hrest := List.forall₂_reverse_iff.2 (forall₂_left_of_append hall hes'.length_eq)
  rw [List.reverse_append, List.reverse_singleton, List.singleton_append,
    List.forall₂_cons_right_iff] at hrest
  obtain ⟨e, gs, he, hgs, hes⟩ := hrest
  refine ⟨gs.reverse, e, fs ++ fs', ?_, he, ?_, fun k hk => ?_⟩
  · rw [← List.reverse_reverse es, hes, List.reverse_cons]
  · rw [← List.forall₂_reverse_iff, List.reverse_reverse]
    exact hgs
  · rcases List.mem_append.1 hk with hk | hk
    · exact Nat.lt_of_lt_of_le h.place (hfs k hk)
    · exact hfs' k hk

theorem parted_take (h : b.Owes ts us rule message i c) (hts : ∀ t ∈ ts, t.text ≠ "")
    (hus : ∀ t ∈ us, t.text ≠ "") (hsame : significant ts = significant us) :
    b.take.Parted ts us c := by
  intro es fs hes hfs hall
  rw [b.errors_take] at hall
  obtain ⟨gs, e, ks, rfl, he, -, -⟩ := h.matched hfs hall
  have hoffset := he.offset_left hus (hsame ▸ h.index_lt) rfl
  have hplace := (h.stands.take h.ahead).place
  have hle := hes e (by simp)
  have hlt := startOf_lt hts (Nat.lt_add_one i) h.index_lt
  omega

theorem parted_report (h : b.Owes ts us rule message i c) {other : String}
    (hother : other ≠ message) : (b.report other).Parted ts us c := by
  intro es fs hes hfs hall
  have hreport : es ++ (b.report other).errors = (es ++ [⟨other, b.place⟩]) ++ b.errors := by
    simp [Builder.report]
  rw [hreport] at hall
  obtain ⟨gs, e, ks, hgs, he, -, -⟩ := h.matched hfs hall
  obtain ⟨-, he'⟩ := List.append_inj' hgs rfl
  rw [← List.singleton_inj.1 he'] at he
  exact hother he.1

theorem parted_again (h : b.Owes ts us rule message i c) (hts : ∀ t ∈ ts, t.text ≠ "")
    {z : Builder} {first : ParseError} {more : List ParseError}
    (hfirst : z.errors = first :: (more ++ b.errors)) (hmore : more ≠ [])
    (hoffset : first.offset = startOf ts i) : z.Parted ts us c := by
  intro es fs hes hfs hall
  have hsplit : es ++ z.errors = (es ++ first :: more) ++ b.errors := by
    rw [hfirst]
    simp
  rw [hsplit] at hall
  obtain ⟨gs, e, ks, hgs, -, hks, hpast⟩ := h.matched hfs hall
  have hmem : first ∈ gs := by
    rw [← List.dropLast_append_getLast hmore, ← List.cons_append, ← List.append_assoc] at hgs
    rw [← (List.append_inj' hgs rfl).1]
    simp
  obtain ⟨k, hk, hcorresponds⟩ := exists_right_of_mem hks hmem
  have := hcorresponds.offset_right hts h.index_lt hoffset
  have := hpast k hk
  omega

end Owes

end Parting

end Builder

namespace Step

def Departs (message : String) : Step Rule → Prop
  | .look choose =>
    ∀ ts, choose ts = .take ∨ ∃ other, other ≠ message ∧ choose ts = .report other
  | _ => False

end Step

namespace Grammar

open Step

theorem errors_takeMany {n : Nat} {b b' : Builder} (h : Runs body (takeMany n) b b') :
    b'.errors = b.errors := by
  induction n generalizing b with
  | zero => cases h; rfl
  | succ n ih =>
    cases h with
    | andThen htake hrest =>
      cases htake
      rw [ih hrest, b.errors_take]

theorem skipGroup_reports {message : String} {b b' : Builder}
    (h : Runs body (skipGroup message) b b') :
    b'.errors = ⟨message, b.place⟩ :: b.errors := by
  cases h with
  | andThen hreport hskip =>
    cases hreport
    cases hskip with
    | node hgroup =>
      cases hgroup with
      | look hmany =>
        have herrors := errors_takeMany hmany
        exact herrors

theorem skipGroup_takes {message : String} {b b' : Builder}
    (h : Runs body (skipGroup message) b b') (hahead : b.ahead ≠ []) :
    b'.ahead.length < b.ahead.length :=
  h.ahead_lt respects patient_body (patient_skipGroup message) (by simpa using hahead)

end Grammar

namespace Builder.Owes

open Step Grammar

variable {ts us : List Token} {rule : Rule} {message : String} {i : Nat} {b c b' : Builder}

theorem parted_of_departs (h : b.Owes ts us rule message i c) (hts : ∀ t ∈ ts, t.text ≠ "")
    (hus : ∀ t ∈ us, t.text ≠ "") (hsame : significant ts = significant us) {s : Act}
    (hs : s.Departs message) (hrun : Runs body s b b') : b'.Parted ts us c := by
  cases hrun with
  | look hrun =>
    rcases hs b.ahead with htake | ⟨other, hother, hreport⟩
    · rw [htake] at hrun
      cases hrun
      exact h.parted_take hts hus hsame
    · rw [hreport] at hrun
      cases hrun
      exact h.parted_report hother
  | _ => exact hs.elim

theorem after_turn (h : b.Owes ts us rule message i c) (hts : ∀ t ∈ ts, t.text ≠ "")
    (hpatient : ∀ ts, patient rule ts = true) {test : List Token → Bool}
    (hrun : Runs body (.repeatWhile test (.insist (.call rule) (skipGroup message))) b b') :
    b'.Parted ts us c ∨ test b.ahead = false ∧ b' = b := by
  obtain ⟨x, y, hxy, hx, hy⟩ := h.balks
  have stays {tried : Builder} (hcall : Runs body (.call rule) b tried) : tried.ahead = b.ahead :=
    hxy.stays respects patient_body hcall hx.symm (hpatient _) (hy.trans hx.symm)
  cases hrun with
  | repeatStop hstop => exact .inr ⟨hstop, rfl⟩
  | @repeatTurn _ _ _ m _ _ hturn hrest =>
    refine .inl (Parted.later ?_ hrest.later (.of_eq rfl rfl))
    cases hturn with
    | insistMoved hcall hmoved =>
      have hfresh := (hcall.took_gap h.stands (stays hcall) h.ahead hmoved).1
      cases hfresh
    | @insistStuck _ _ _ tried _ hcall hstuck hskip =>
      have hahead := stays hcall
      obtain ⟨j, fresh, htried⟩ := hcall.stands ⟨i, false, h.stands⟩
      obtain rfl := h.stands.index_eq (hahead.symm.trans htried.ahead) h.ahead
      obtain ⟨more, hmore⟩ := hcall.errors_suffix
      have hagain : m.errors = ⟨message, tried.place⟩ :: (more ++ b.errors) := by
        rw [skipGroup_reports hskip, hmore]
      refine h.parted_again hts hagain ?_ htried.place
      rintro rfl
      have hresponds := hcall.responds responds_body h.ahead
      simp [hahead, ← hmore] at hresponds

end Builder.Owes

end CrossReference.Source
