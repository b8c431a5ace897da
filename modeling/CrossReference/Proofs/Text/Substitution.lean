import CrossReference.Text.Placeholder
import Mathlib.Data.List.Basic

namespace CrossReference.Text.Placeholder

structure Span where
  start : Nat
  stop : Nat

def Span.shift (k : Nat) (s : Span) : Span := ⟨s.start + k, s.stop + k⟩

def Bare (cs : List Char) : Prop := ∀ c ∈ cs, isBrace c = false

def Occurs (cs : List Char) (s : Span) : Prop :=
  ∃ before body after, cs = before ++ '{' :: (body ++ '}' :: after) ∧ Bare body ∧
    s = ⟨before.length, before.length + body.length + 2⟩

def replaced (text : List Char) (position : Nat) : List (Span × List Char) → List Char
  | [] => text.drop position
  | (s, new) :: more =>
    (text.drop position).take (s.start - position) ++ new ++ replaced text s.stop more

theorem bare_cons {c : Char} {cs : List Char} : Bare (c :: cs) ↔ isBrace c = false ∧ Bare cs :=
  List.forall_mem_cons

theorem close?_eq_some_iff {cs rest : List Char} :
    close? cs = some rest ↔ ∃ body, cs = body ++ '}' :: rest ∧ Bare body := by
  induction cs with
  | nil => simp [close?]
  | cons c cs ih =>
    cases hc : isBrace c with
    | false =>
      have hskip : close? (c :: cs) = close? cs := by simp [close?, hc]
      rw [hskip, ih]
      constructor
      · rintro ⟨body, rfl, hbody⟩
        exact ⟨c :: body, rfl, bare_cons.2 ⟨hc, hbody⟩⟩
      · rintro ⟨body, h, hbody⟩
        cases body with
        | nil =>
          obtain ⟨rfl, _⟩ := List.cons.inj h
          cases hc
        | cons d body =>
          obtain ⟨rfl, rfl⟩ := List.cons.inj h
          exact ⟨body, rfl, (bare_cons.1 hbody).2⟩
    | true =>
      have hstop : close? (c :: cs) = if c = '}' then some cs else none := by simp [close?, hc]
      rw [hstop]
      constructor
      · intro h
        obtain ⟨rfl, h⟩ := Option.ite_none_right_eq_some.1 h
        cases h
        exact ⟨[], rfl, by simp [Bare]⟩
      · rintro ⟨body, h, hbody⟩
        cases body with
        | nil =>
          obtain ⟨rfl, rfl⟩ := List.cons.inj h
          simp
        | cons d body =>
          obtain ⟨rfl, _⟩ := List.cons.inj h
          rw [(bare_cons.1 hbody).1] at hc
          cases hc

theorem close?_of_bare {body : List Char} (hbody : Bare body) (after : List Char) :
    close? (body ++ '}' :: after) = some after :=
  close?_eq_some_iff.2 ⟨body, rfl, hbody⟩

theorem body_unique {body other after rest : List Char} (hbody : Bare body) (hother : Bare other)
    (h : body ++ '}' :: after = other ++ '}' :: rest) : body = other := by
  have hafter := close?_of_bare hbody after
  rw [h, close?_of_bare hother] at hafter
  obtain rfl := Option.some.inj hafter
  exact List.append_cancel_right h

theorem Occurs.after (xs : List Char) {cs : List Char} {s : Span} (h : Occurs cs s) :
    Occurs (xs ++ cs) (s.shift xs.length) := by
  obtain ⟨before, body, after, rfl, hbody, rfl⟩ := h
  refine ⟨xs ++ before, body, after, by simp, hbody, ?_⟩
  simp only [Span.shift, List.length_append]
  congr 1 <;> omega

theorem occurs_cons {c : Char} {cs : List Char} {s : Span} :
    Occurs (c :: cs) s ↔
      (∃ body after, c = '{' ∧ cs = body ++ '}' :: after ∧ Bare body ∧
        s = ⟨0, body.length + 2⟩) ∨
      ∃ t, Occurs cs t ∧ s = t.shift 1 := by
  constructor
  · rintro ⟨before, body, after, h, hbody, rfl⟩
    cases before with
    | nil =>
      obtain ⟨rfl, rfl⟩ := List.cons.inj h
      exact .inl ⟨body, after, rfl, rfl, hbody, by simp⟩
    | cons d before =>
      obtain ⟨rfl, rfl⟩ := List.cons.inj h
      refine .inr ⟨_, ⟨before, body, after, rfl, hbody, rfl⟩, ?_⟩
      simp only [Span.shift, List.length_cons]
      congr 1
      omega
  · rintro (⟨body, after, rfl, rfl, hbody, rfl⟩ | ⟨t, ht, rfl⟩)
    · exact ⟨[], body, after, rfl, hbody, by simp⟩
    · exact ht.after [c]

theorem occurs_of_bare {body after : List Char} {s : Span} (hbody : Bare body)
    (h : Occurs (body ++ after) s) : ∃ t, Occurs after t ∧ s = t.shift body.length := by
  induction body generalizing s with
  | nil => exact ⟨s, h, rfl⟩
  | cons c body ih =>
    obtain ⟨hc, hbody⟩ := bare_cons.1 hbody
    rcases occurs_cons.1 h with ⟨_, _, rfl, _⟩ | ⟨t, ht, rfl⟩
    · cases hc
    · obtain ⟨u, hu, rfl⟩ := ih hbody ht
      refine ⟨u, hu, ?_⟩
      simp only [Span.shift, List.length_cons]
      congr 1

structure Lists (cs : List Char) (spans : List Span) : Prop where
  mem_iff : ∀ s, s ∈ spans ↔ Occurs cs s
  apart : spans.Pairwise fun a b => a.stop ≤ b.start

theorem lists_nil : Lists [] [] := by
  refine ⟨fun s => ?_, .nil⟩
  refine iff_of_false List.not_mem_nil ?_
  rintro ⟨before, body, after, h, _⟩
  simp at h

theorem pairwise_shift {spans : List Span} (k : Nat)
    (h : spans.Pairwise fun a b => a.stop ≤ b.start) :
    (spans.map (Span.shift k)).Pairwise fun a b => a.stop ≤ b.start := by
  rw [List.pairwise_map]
  exact h.imp fun hab => Nat.add_le_add_right hab k

theorem Lists.skip {c : Char} {cs : List Char} {spans : List Span} (h : Lists cs spans)
    (hc : c = '{' → close? cs = none) : Lists (c :: cs) (spans.map (Span.shift 1)) where
  apart := pairwise_shift 1 h.apart
  mem_iff s := by
    rw [occurs_cons, List.mem_map]
    constructor
    · rintro ⟨t, ht, rfl⟩
      exact .inr ⟨t, (h.mem_iff t).1 ht, rfl⟩
    · rintro (⟨body, after, rfl, hcs, hbody, _⟩ | ⟨t, ht, rfl⟩)
      · have hclose := close?_eq_some_iff.2 ⟨body, hcs, hbody⟩
        rw [hc rfl] at hclose
        cases hclose
      · exact ⟨t, (h.mem_iff t).2 ht, rfl⟩

theorem Lists.take {body after : List Char} {spans : List Span} (h : Lists after spans)
    (hbody : Bare body) :
    Lists ('{' :: (body ++ '}' :: after))
      (⟨0, body.length + 2⟩ :: spans.map (Span.shift (body.length + 2))) where
  apart := by
    refine List.pairwise_cons.2 ⟨fun s hs => ?_, pairwise_shift _ h.apart⟩
    obtain ⟨t, _, rfl⟩ := List.mem_map.1 hs
    exact Nat.le_add_left _ _
  mem_iff s := by
    rw [occurs_cons, List.mem_cons, List.mem_map]
    constructor
    · rintro (rfl | ⟨t, ht, rfl⟩)
      · exact .inl ⟨body, after, rfl, rfl, hbody, rfl⟩
      · refine .inr ⟨t.shift (body.length + 1), ?_, rfl⟩
        have hlater := ((h.mem_iff t).1 ht).after (body ++ ['}'])
        simpa using hlater
    · rintro (⟨other, rest, _, hcs, hother, rfl⟩ | ⟨t, ht, rfl⟩)
      · obtain rfl := body_unique hbody hother hcs
        exact .inl rfl
      · obtain ⟨u, hu, rfl⟩ := occurs_of_bare hbody ht
        -- The closing brace opens nothing.
        rcases occurs_cons.1 hu with ⟨_, _, hbrace, _⟩ | ⟨v, hv, rfl⟩
        · cases hbrace
        · refine .inr ⟨v, (h.mem_iff v).2 hv, ?_⟩
          simp only [Span.shift]
          congr 1 <;> omega

theorem replaced_shift (xs text : List Char) (position : Nat) (parts : List (Span × List Char)) :
    replaced (xs ++ text) (position + xs.length) (parts.map (Prod.map (Span.shift xs.length) id)) =
      replaced text position parts := by
  have hdrop (n : Nat) : (xs ++ text).drop (n + xs.length) = text.drop n := by
    rw [Nat.add_comm, ← List.drop_drop, List.drop_left]
  induction parts generalizing position with
  | nil => exact hdrop position
  | cons part parts ih =>
    rw [List.map_cons, Prod.map, replaced, replaced, Span.shift, hdrop, Nat.add_sub_add_right, ih]
    rfl

theorem replaced_cons (c : Char) (cs : List Char) (parts : List (Span × List Char)) :
    replaced (c :: cs) 0 (parts.map (Prod.map (Span.shift 1) id)) = c :: replaced cs 0 parts := by
  cases parts with
  | nil => rfl
  | cons part parts =>
    have hrest : replaced (c :: cs) (part.1.stop + 1) (parts.map (Prod.map (Span.shift 1) id)) =
        replaced cs part.1.stop parts := replaced_shift [c] cs part.1.stop parts
    rw [List.map_cons, Prod.map, replaced, replaced, Span.shift, hrest]
    rfl

theorem replaced_take (body after : List Char) (new : List Char)
    (parts : List (Span × List Char)) :
    replaced ('{' :: (body ++ '}' :: after)) 0
        ((⟨0, body.length + 2⟩, new) :: parts.map (Prod.map (Span.shift (body.length + 2)) id)) =
      new ++ replaced after 0 parts := by
  have hrest := replaced_shift ('{' :: (body ++ ['}'])) after 0 parts
  simp only [List.cons_append, List.append_assoc, List.nil_append, List.length_cons,
    List.length_append, List.length_nil, Nat.zero_add] at hrest
  rw [replaced, hrest]
  rfl

theorem split?_skip {c : Char} {cs : List Char} (hc : c = '{' → close? cs = none) :
    split? (c :: cs) = (split? cs).map fun parts => (c :: parts.1, parts.2) := by
  have hnone : (if c = '{' then close? cs else none) = none := by
    split
    · next h => exact hc h
    · rfl
  rw [split?, hnone]

theorem split?_take {body after : List Char} (hbody : Bare body) :
    split? ('{' :: (body ++ '}' :: after)) = some ([], after) := by
  rw [split?, if_pos rfl, close?_of_bare hbody]

theorem countIn_skip {c : Char} {cs : List Char} (hc : c = '{' → close? cs = none) :
    countIn (c :: cs) = countIn cs := by
  rw [countIn, countIn, split?_skip hc]
  cases split? cs <;> rfl

theorem countIn_take {body after : List Char} (hbody : Bare body) :
    countIn ('{' :: (body ++ '}' :: after)) = countIn after + 1 := by
  rw [countIn, split?_take hbody]

theorem fill_skip {c : Char} {cs : List Char} (hc : c = '{' → close? cs = none)
    (args : List (List Char)) : fill (c :: cs) args = c :: fill cs args := by
  cases args with
  | nil => rfl
  | cons arg args =>
    rw [fill, fill, split?_skip hc]
    cases split? cs <;> rfl

theorem fill_take {body after : List Char} (hbody : Bare body) (arg : List Char)
    (args : List (List Char)) :
    fill ('{' :: (body ++ '}' :: after)) (arg :: args) = arg ++ fill after args := by
  rw [fill, split?_take hbody]
  rfl

@[elab_as_elim]
theorem along_placeholders {motive : List Char → Prop} (nil : motive [])
    (skip : ∀ c cs, (c = '{' → close? cs = none) → motive cs → motive (c :: cs))
    (take : ∀ body after, Bare body → motive after →
      motive ('{' :: (body ++ '}' :: after))) (cs : List Char) : motive cs := by
  induction hn : cs.length using Nat.strongRecOn generalizing cs with
  | _ n ih =>
    subst hn
    cases cs with
    | nil => exact nil
    | cons c cs =>
      by_cases hopens : ∃ rest, c = '{' ∧ close? cs = some rest
      · obtain ⟨after, rfl, hclose⟩ := hopens
        obtain ⟨body, rfl, hbody⟩ := close?_eq_some_iff.1 hclose
        exact take body after hbody (ih after.length (by simp; omega) after rfl)
      · refine skip c cs (fun hc => ?_) (ih cs.length (by simp) cs rfl)
        exact Option.eq_none_iff_forall_ne_some.2 fun rest hrest => hopens ⟨rest, hc, hrest⟩

theorem exists_lists (cs : List Char) :
    ∃ spans, Lists cs spans ∧ countIn cs = spans.length ∧
      ∀ args, fill cs args = replaced cs 0 (spans.zip args) := by
  induction cs using along_placeholders with
  | nil =>
    refine ⟨[], lists_nil, by rw [countIn]; rfl, fun args => ?_⟩
    cases args <;> rfl
  | skip c cs hskip ih =>
    obtain ⟨spans, hlists, hcount, hfill⟩ := ih
    refine ⟨_, hlists.skip hskip, ?_, fun args => ?_⟩
    · rw [countIn_skip hskip, hcount, List.length_map]
    · rw [fill_skip hskip, hfill, List.zip_map_left, replaced_cons]
  | take body after hbody ih =>
    obtain ⟨spans, hlists, hcount, hfill⟩ := ih
    refine ⟨_, hlists.take hbody, ?_, fun args => ?_⟩
    · rw [countIn_take hbody, hcount, List.length_cons, List.length_map]
    · cases args with
      | nil => rfl
      | cons arg args =>
        rw [fill_take hbody, hfill, List.zip_cons_cons, List.zip_map_left, replaced_take]

theorem substitute_first_placeholders (template : String) :
    ∃ spans : List Span,
      (∀ s, s ∈ spans ↔ Occurs template.toList s) ∧
      spans.Pairwise (fun a b => a.stop ≤ b.start) ∧
      count template = spans.length ∧
      ∀ args : List String,
        (substitute template args).toList =
          replaced template.toList 0 (spans.zip (args.map String.toList)) := by
  obtain ⟨spans, hlists, hcount, hfill⟩ := exists_lists template.toList
  refine ⟨spans, hlists.mem_iff, hlists.apart, hcount, fun args => ?_⟩
  rw [substitute, String.toList_ofList, hfill]

end CrossReference.Text.Placeholder
