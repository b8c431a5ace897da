import Mathlib.Data.List.Forall2

namespace CrossReference

variable {α β γ δ : Type} {R : α → β → Prop} {S : γ → δ → Prop} {extra : β → Prop}

inductive Spread (R : α → β → Prop) (extra : β → Prop) : List α → List β → Prop
  | nil : Spread R extra [] []
  | keep {a : α} {b : β} {as : List α} {bs : List β} :
      R a b → Spread R extra as bs → Spread R extra (a :: as) (b :: bs)
  | more {b : β} {as : List α} {bs : List β} :
      extra b → Spread R extra as bs → Spread R extra as (b :: bs)

namespace Spread

variable {as as' : List α} {bs bs' : List β}

theorem append (h : Spread R extra as bs) (h' : Spread R extra as' bs') :
    Spread R extra (as ++ as') (bs ++ bs') := by
  induction h with
  | nil => exact h'
  | keep hab _ ih => exact .keep hab ih
  | more hb _ ih => exact .more hb ih

theorem of_forall₂ (h : List.Forall₂ R as bs) : Spread R extra as bs := by
  induction h with
  | nil => exact .nil
  | cons hab _ ih => exact .keep hab ih

theorem of_flatMap {f : γ → List α} {g : δ → List β} {cs : List γ} {ds : List δ}
    (h : List.Forall₂ S cs ds) (hf : ∀ c d, S c d → Spread R extra (f c) (g d)) :
    Spread R extra (cs.flatMap f) (ds.flatMap g) := by
  induction h with
  | nil => exact .nil
  | cons hcd _ ih => exact (hf _ _ hcd).append ih

theorem of_extra (h : ∀ b ∈ bs, extra b) : Spread R extra [] bs := by
  induction bs with
  | nil => exact .nil
  | cons b bs ih =>
    obtain ⟨hb, hbs⟩ := List.forall_mem_cons.1 h
    exact .more hb (ih hbs)

theorem of_map {f : α → γ} {g : β → δ} {more : δ → Prop}
    (h : Spread S more (as.map f) (bs.map g))
    (hkeep : ∀ a ∈ as, ∀ b ∈ bs, S (f a) (g b) → R a b)
    (hmore : ∀ b ∈ bs, more (g b) → extra b) : Spread R extra as bs := by
  generalize hxs : as.map f = xs at h
  generalize hys : bs.map g = ys at h
  induction h generalizing as bs with
  | nil =>
    rw [List.map_eq_nil_iff.1 hxs, List.map_eq_nil_iff.1 hys]
    exact .nil
  | keep hab _ ih =>
    obtain ⟨a, as, rfl, rfl, hx⟩ := List.map_eq_cons_iff.1 hxs
    obtain ⟨b, bs, rfl, rfl, hy⟩ := List.map_eq_cons_iff.1 hys
    refine .keep (hkeep a List.mem_cons_self b List.mem_cons_self hab) (ih ?_ ?_ hx hy)
    · intro a ha b hb
      exact hkeep a (List.mem_cons_of_mem _ ha) b (List.mem_cons_of_mem _ hb)
    · intro b hb
      exact hmore b (List.mem_cons_of_mem _ hb)
  | more hb _ ih =>
    obtain ⟨b, bs, rfl, rfl, hy⟩ := List.map_eq_cons_iff.1 hys
    refine .more (hmore b List.mem_cons_self hb) (ih ?_ ?_ hxs hy)
    · intro a ha b hb
      exact hkeep a ha b (List.mem_cons_of_mem _ hb)
    · intro b hb
      exact hmore b (List.mem_cons_of_mem _ hb)

theorem filter {p : α → Bool} {q : β → Bool} (h : Spread R extra as bs)
    (hkeep : ∀ a b, R a b → p a = q b) (hmore : ∀ b, extra b → q b = false) :
    List.Forall₂ R (as.filter p) (bs.filter q) := by
  induction h with
  | nil => exact .nil
  | @keep a b _ _ hab _ ih =>
    rw [List.filter_cons, List.filter_cons, hkeep a b hab]
    split
    · exact .cons hab ih
    · exact ih
  | @more b _ _ hb _ ih =>
    rw [List.filter_cons, hmore b hb]
    exact ih

theorem flatMap {f : α → List γ} {g : β → List δ} (h : Spread R extra as bs)
    (hkeep : ∀ a b, R a b → List.Forall₂ S (f a) (g b)) (hmore : ∀ b, extra b → g b = []) :
    List.Forall₂ S (as.flatMap f) (bs.flatMap g) := by
  induction h with
  | nil => exact .nil
  | @keep a b _ _ hab _ ih =>
    rw [List.flatMap_cons, List.flatMap_cons]
    exact List.rel_append (hkeep a b hab) ih
  | @more b _ _ hb _ ih =>
    rw [List.flatMap_cons, hmore b hb]
    exact ih

theorem flatMap_eq {f : α → List γ} {g : β → List γ} (h : Spread R extra as bs)
    (hkeep : ∀ a ∈ as, ∀ b, R a b → f a = g b) (hmore : ∀ b, extra b → g b = []) :
    as.flatMap f = bs.flatMap g := by
  induction h with
  | nil => rfl
  | @keep a b _ _ hab _ ih =>
    obtain ⟨ha, has⟩ := List.forall_mem_cons.1 hkeep
    rw [List.flatMap_cons, List.flatMap_cons, ha b hab, ih has]
  | @more b _ _ hb _ ih =>
    rw [List.flatMap_cons, hmore b hb, ih hkeep]
    rfl

end Spread

section Found

variable {as : List α} {bs : List β} {x : Option α} {y : Option β}

theorem rel_bind {f : α → Option γ} {g : β → Option δ} (h : Option.Rel R x y)
    (hf : ∀ a b, x = some a → y = some b → R a b → Option.Rel S (f a) (g b)) :
    Option.Rel S (x.bind f) (y.bind g) := by
  cases h with
  | none => exact .none
  | some hab => exact hf _ _ rfl rfl hab

theorem bind_eq_of_rel {f : α → Option γ} {g : β → Option γ} (h : Option.Rel R x y)
    (hf : ∀ a b, x = some a → y = some b → R a b → f a = g b) : x.bind f = y.bind g := by
  cases h with
  | none => rfl
  | some hab => exact hf _ _ rfl rfl hab

theorem any_eq_of_rel {p : α → Bool} {q : β → Bool} (h : Option.Rel R x y)
    (hp : ∀ a b, x = some a → y = some b → R a b → p a = q b) : x.any p = y.any q := by
  cases h with
  | none => rfl
  | some hab => exact hp _ _ rfl rfl hab

theorem isNone_eq_of_rel (h : Option.Rel R x y) : x.isNone = y.isNone := by
  cases h with
  | none => rfl
  | some _ => rfl

theorem rel_map {f : α → γ} {g : β → δ} (h : Option.Rel R x y)
    (hf : ∀ a b, R a b → S (f a) (g b)) : Option.Rel S (x.map f) (y.map g) := by
  cases h with
  | none => exact .none
  | some hab => exact .some (hf _ _ hab)

theorem rel_head? (h : List.Forall₂ R as bs) : Option.Rel R as.head? bs.head? := by
  cases h with
  | nil => exact .none
  | cons hab _ => exact .some hab

theorem rel_getLast? (h : List.Forall₂ R as bs) : Option.Rel R as.getLast? bs.getLast? := by
  rw [← List.head?_reverse, ← List.head?_reverse]
  exact rel_head? (List.rel_reverse h)

theorem rel_filter {p : α → Bool} {q : β → Bool} (h : List.Forall₂ R as bs)
    (hp : ∀ a b, R a b → p a = q b) : List.Forall₂ R (as.filter p) (bs.filter q) := by
  have hspread : Spread R (fun _ => False) as bs := .of_forall₂ h
  exact hspread.filter hp fun _ => False.elim

theorem rel_find? {p : α → Bool} {q : β → Bool} (h : List.Forall₂ R as bs)
    (hp : ∀ a b, R a b → p a = q b) : Option.Rel R (as.find? p) (bs.find? q) := by
  rw [← List.head?_filter, ← List.head?_filter]
  exact rel_head? (rel_filter h hp)

theorem rel_findSome? {f : α → Option γ} {g : β → Option δ} (h : List.Forall₂ R as bs)
    (hf : ∀ a b, R a b → Option.Rel S (f a) (g b)) :
    Option.Rel S (as.findSome? f) (bs.findSome? g) := by
  induction h with
  | nil => exact .none
  | @cons a b _ _ hab _ ih =>
    rw [List.findSome?_cons, List.findSome?_cons]
    have hfound := hf a b hab
    generalize f a = x, g b = y at hfound
    cases hfound with
    | none => exact ih
    | some hcd => exact .some hcd

end Found

end CrossReference
