import CrossReference.Proofs.Text.Substitution

/-!
The placeholders that are left after substitution. A replaced placeholder leaves nothing to count,
but the braces around it may come to face each other: then they are one more placeholder.
-/

namespace CrossReference.Text.Placeholder

inductive Filled : List Char → Nat → Prop where
  | nil : Filled [] 0
  | skip {c : Char} {cs : List Char} {n : Nat} :
      isBrace c = false → Filled cs n → Filled (c :: cs) n
  | take {body cs : List Char} {n : Nat} :
      Bare body → Filled cs n → Filled ('{' :: (body ++ '}' :: cs)) (n + 1)

/-- The next brace is a closing one, once the first `k` placeholders are gone. -/
def Closes (cs : List Char) (k : Nat) : Prop :=
  ∃ inner after n, cs = inner ++ '}' :: after ∧ Filled inner n ∧ n ≤ k

/-- The brace at `i` opens no placeholder, and comes to face a closing brace when the first `k`
placeholders are replaced. -/
def Faces (cs : List Char) (k i : Nat) : Prop :=
  ∃ before inner after n, cs = before ++ '{' :: (inner ++ '}' :: after) ∧
    before.length = i ∧ Filled inner n ∧ 0 < n ∧ countIn before + n ≤ k

theorem countIn_nil : countIn [] = 0 := by
  rw [countIn]
  rfl

theorem close?_skip {c : Char} (hc : isBrace c = false) (cs : List Char) :
    close? (c :: cs) = close? cs := by
  simp [close?, hc]

theorem close?_bare {body : List Char} (hbody : Bare body) (cs : List Char) :
    close? (body ++ cs) = close? cs := by
  induction body with
  | nil => rfl
  | cons c body ih =>
    obtain ⟨hc, hbody⟩ := bare_cons.1 hbody
    rw [List.cons_append, close?_skip hc, ih hbody]

theorem close?_open (cs : List Char) : close? ('{' :: cs) = none := by
  simp [close?, isBrace]

theorem close?_prefix {before cs : List Char} (h : close? (before ++ cs) = none) :
    close? before = none := by
  refine Option.eq_none_iff_forall_ne_some.2 fun rest hrest => ?_
  obtain ⟨body, rfl, hbody⟩ := close?_eq_some_iff.1 hrest
  rw [List.append_assoc, List.cons_append, close?_of_bare hbody] at h
  cases h

theorem countIn_bare {body : List Char} (hbody : Bare body) (cs : List Char) :
    countIn (body ++ cs) = countIn cs := by
  induction body with
  | nil => rfl
  | cons c body ih =>
    obtain ⟨hc, hbody⟩ := bare_cons.1 hbody
    rw [List.cons_append, countIn_skip, ih hbody]
    rintro rfl
    cases hc

theorem countIn_open {cs : List Char} :
    countIn ('{' :: cs) = countIn cs + if (close? cs).isSome then 1 else 0 := by
  cases h : close? cs with
  | none => exact countIn_skip fun _ => h
  | some rest =>
    obtain ⟨body, rfl, hbody⟩ := close?_eq_some_iff.1 h
    rw [countIn_take hbody, countIn_bare hbody, countIn_skip (by simp)]
    rfl

theorem Filled.bare {inner : List Char} (h : Filled inner 0) : Bare inner := by
  generalize hn : 0 = n at h
  induction h with
  | nil => exact fun _ hc => absurd hc List.not_mem_nil
  | skip hc _ ih => exact bare_cons.2 ⟨hc, ih hn⟩
  | take => cases hn

theorem Filled.close? {inner : List Char} {n : Nat} (h : Filled inner n) (hn : 0 < n)
    (after : List Char) : close? (inner ++ after) = none := by
  induction h with
  | nil => exact absurd hn (Nat.lt_irrefl 0)
  | skip hc _ ih => exact (close?_skip hc _).trans (ih hn)
  | take => exact close?_open _

theorem closes_skip {c : Char} {cs : List Char} {k : Nat} (hc : isBrace c = false) :
    Closes (c :: cs) k ↔ Closes cs k := by
  constructor
  · rintro ⟨inner, after, n, h, hinner, hn⟩
    cases hinner with
    | nil =>
      obtain ⟨rfl, _⟩ := List.cons.inj h
      cases hc
    | skip _ hinner =>
      obtain ⟨rfl, rfl⟩ := List.cons.inj h
      exact ⟨_, after, n, rfl, hinner, hn⟩
    | take =>
      obtain ⟨rfl, _⟩ := List.cons.inj h
      cases hc
  · rintro ⟨inner, after, n, rfl, hinner, hn⟩
    exact ⟨c :: inner, after, n, rfl, .skip hc hinner, hn⟩

theorem not_closes_open {cs : List Char} {k : Nat} (hopen : close? cs = none) :
    ¬ Closes ('{' :: cs) k := by
  rintro ⟨inner, after, n, h, hinner, -⟩
  cases hinner with
  | nil => cases (List.cons.inj h).1
  | skip hc =>
    obtain ⟨rfl, _⟩ := List.cons.inj h
    cases hc
  | take hbody =>
    rw [(List.cons.inj h).2, List.append_eq, List.append_assoc, List.cons_append,
      close?_of_bare hbody] at hopen
    cases hopen

theorem closes_take {body after : List Char} {k : Nat} (hbody : Bare body) :
    Closes ('{' :: (body ++ '}' :: after)) (k + 1) ↔ Closes after k := by
  constructor
  · rintro ⟨inner, rest, n, h, hinner, hn⟩
    cases hinner with
    | nil => cases (List.cons.inj h).1
    | skip hc =>
      obtain ⟨rfl, _⟩ := List.cons.inj h
      cases hc
    | take hother hinner =>
      obtain ⟨_, h⟩ := List.cons.inj h
      rw [List.append_eq, List.append_assoc, List.cons_append] at h
      obtain rfl := body_unique hbody hother h
      obtain ⟨_, rfl⟩ := List.cons.inj (List.append_cancel_left h)
      exact ⟨_, rest, _, rfl, hinner, Nat.le_of_succ_le_succ hn⟩
  · rintro ⟨inner, rest, n, rfl, hinner, hn⟩
    exact ⟨_, rest, n + 1, by simp, .take hbody hinner, Nat.succ_le_succ hn⟩

theorem not_closes_zero {cs : List Char} : ¬ Closes ('{' :: cs) 0 := by
  rintro ⟨inner, after, n, h, hinner, hn⟩
  cases hinner with
  | nil => cases (List.cons.inj h).1
  | skip hc =>
    obtain ⟨rfl, _⟩ := List.cons.inj h
    cases hc
  | take => exact absurd hn (Nat.not_succ_le_zero _)

theorem close?_fill (cs : List Char) (args : List (List Char)) (hargs : ∀ arg ∈ args, Bare arg) :
    (close? (fill cs args)).isSome ↔ Closes cs args.length := by
  induction cs using along_placeholders generalizing args with
  | nil =>
    have hfill : fill [] args = [] := by cases args <;> rfl
    rw [hfill]
    refine iff_of_false Bool.false_ne_true ?_
    rintro ⟨inner, after, n, h, -⟩
    simp at h
  | skip c cs hskip ih =>
    rw [fill_skip hskip]
    cases hc : isBrace c with
    | false => rw [close?_skip hc, closes_skip hc, ih args hargs]
    | true =>
      rcases (by simpa [isBrace] using hc : c = '{' ∨ c = '}') with rfl | rfl
      · rw [close?_open]
        exact iff_of_false Bool.false_ne_true (not_closes_open (hskip rfl))
      · refine iff_of_true ?_ ⟨[], cs, 0, rfl, .nil, Nat.zero_le _⟩
        rw [show '}' :: fill cs args = [] ++ '}' :: fill cs args from rfl,
          close?_of_bare (by simp [Bare])]
        rfl
  | take body after hbody ih =>
    cases args with
    | nil =>
      rw [fill, close?_open]
      exact iff_of_false Bool.false_ne_true not_closes_zero
    | cons arg args =>
      obtain ⟨harg, hargs⟩ := List.forall_mem_cons.1 hargs
      rw [fill_take hbody, close?_bare harg, List.length_cons, closes_take hbody, ih args hargs]

theorem faces_skip {c : Char} {cs : List Char} {k i : Nat} (hskip : c = '{' → close? cs = none) :
    Faces (c :: cs) k i ↔ (i = 0 ∧ c = '{' ∧ Closes cs k) ∨ ∃ j, i = j + 1 ∧ Faces cs k j := by
  constructor
  · rintro ⟨before, inner, after, n, h, rfl, hinner, hn, hk⟩
    cases before with
    | nil =>
      obtain ⟨rfl, rfl⟩ := List.cons.inj h
      exact .inl ⟨rfl, rfl, inner, after, n, rfl, hinner, Nat.le_of_add_left_le hk⟩
    | cons d before =>
      obtain ⟨rfl, rfl⟩ := List.cons.inj h
      rw [countIn_skip fun hc => close?_prefix (hskip hc)] at hk
      exact .inr ⟨before.length, rfl, before, inner, after, n, rfl, rfl, hinner, hn, hk⟩
  · rintro (⟨rfl, rfl, inner, after, n, rfl, hinner, hk⟩ | ⟨_, rfl, before, inner, after, n, rfl,
      rfl, hinner, hn, hk⟩)
    · have hn : 0 < n := by
        refine Nat.pos_of_ne_zero ?_
        rintro rfl
        have hclose := hskip rfl
        rw [close?_of_bare hinner.bare] at hclose
        cases hclose
      refine ⟨[], inner, after, n, rfl, rfl, hinner, hn, ?_⟩
      rw [countIn_nil, Nat.zero_add]
      exact hk
    · refine ⟨c :: before, inner, after, n, rfl, rfl, hinner, hn, ?_⟩
      rw [countIn_skip fun hc => close?_prefix (hskip hc)]
      exact hk

theorem exists_behind_closing {body after before rest : List Char} (hbody : Bare body)
    (h : body ++ '}' :: after = before ++ '{' :: rest) :
    ∃ middle, before = body ++ '}' :: middle ∧ after = middle ++ '{' :: rest := by
  rcases List.append_eq_append_iff.1 h with ⟨middle, rfl, hmiddle⟩ | ⟨middle, rfl, hmiddle⟩
  · cases middle with
    | nil => cases (List.cons.inj hmiddle).1
    | cons c middle =>
      obtain ⟨rfl, rfl⟩ := List.cons.inj hmiddle
      exact ⟨middle, rfl, rfl⟩
  · cases middle with
    | nil => cases (List.cons.inj hmiddle).1
    | cons c middle =>
      obtain ⟨rfl, _⟩ := List.cons.inj hmiddle
      exact absurd (hbody '{' (by simp)) (by decide)

theorem faces_take {body after : List Char} {k i : Nat} (hbody : Bare body) :
    Faces ('{' :: (body ++ '}' :: after)) (k + 1) i ↔
      ∃ j, i = j + (body.length + 2) ∧ Faces after k j := by
  constructor
  · rintro ⟨before, inner, rest, n, h, rfl, hinner, hn, hk⟩
    cases before with
    | nil =>
      -- The next brace would be an opening one.
      have hclose := hinner.close? hn ('}' :: rest)
      rw [← (List.cons.inj h).2, close?_of_bare hbody] at hclose
      cases hclose
    | cons c before =>
      obtain ⟨rfl, htail⟩ := List.cons.inj h
      obtain ⟨middle, rfl, rfl⟩ := exists_behind_closing hbody htail
      rw [countIn_take hbody] at hk
      refine ⟨middle.length, ?_, middle, inner, rest, n, rfl, rfl, hinner, hn, ?_⟩
      · simp only [List.length_cons, List.length_append]
        omega
      · omega
  · rintro ⟨_, rfl, before, inner, rest, n, rfl, rfl, hinner, hn, hk⟩
    refine ⟨'{' :: (body ++ '}' :: before), inner, rest, n, by simp, ?_, hinner, hn, ?_⟩
    · simp only [List.length_cons, List.length_append]
      omega
    · rw [countIn_take hbody]
      omega

theorem not_faces_zero {cs : List Char} {i : Nat} : ¬ Faces cs 0 i := by
  rintro ⟨before, inner, after, n, _, _, _, hn, hk⟩
  omega

theorem exists_faces (cs : List Char) (args : List (List Char)) (hargs : ∀ arg ∈ args, Bare arg) :
    ∃ opening : List Nat, (∀ i, i ∈ opening ↔ Faces cs args.length i) ∧
      opening.Pairwise (· < ·) ∧
      countIn (fill cs args) + min args.length (countIn cs) = countIn cs + opening.length := by
  induction cs using along_placeholders generalizing args with
  | nil =>
    refine ⟨[], fun i => iff_of_false List.not_mem_nil ?_, .nil, ?_⟩
    · rintro ⟨before, inner, after, n, h, -⟩
      simp at h
    · have hfill : fill [] args = [] := by cases args <;> rfl
      rw [hfill, countIn_nil, Nat.min_zero, List.length_nil]
  | skip c cs hskip ih =>
    obtain ⟨opening, hmem, hpair, hcount⟩ := ih args hargs
    have hshift : (opening.map (· + 1)).Pairwise (· < ·) := by
      rw [List.pairwise_map]
      exact hpair.imp Nat.succ_lt_succ
    have hmap (i : Nat) : i ∈ opening.map (· + 1) ↔ ∃ j, i = j + 1 ∧ Faces cs args.length j := by
      simp only [List.mem_map, hmem]
      constructor
      · rintro ⟨j, hj, rfl⟩
        exact ⟨j, rfl, hj⟩
      · rintro ⟨j, rfl, hj⟩
        exact ⟨j, hj, rfl⟩
    by_cases hfaces : c = '{' ∧ Closes cs args.length
    · obtain ⟨rfl, hcloses⟩ := hfaces
      refine ⟨0 :: opening.map (· + 1), fun i => ?_, ?_, ?_⟩
      · rw [List.mem_cons, hmap, faces_skip hskip]
        simp [hcloses]
      · refine List.pairwise_cons.2 ⟨fun i hi => ?_, hshift⟩
        obtain ⟨j, rfl, _⟩ := (hmap i).1 hi
        exact Nat.succ_pos j
      · rw [fill_skip hskip, countIn_open, if_pos ((close?_fill cs args hargs).2 hcloses),
          countIn_skip hskip, List.length_cons, List.length_map]
        omega
    · refine ⟨opening.map (· + 1), fun i => ?_, hshift, ?_⟩
      · rw [hmap, faces_skip hskip, or_iff_right fun h => hfaces h.2]
      · have hopen (hc : c = '{') : close? (fill cs args) = none := by
          rw [← Option.not_isSome_iff_eq_none, close?_fill cs args hargs]
          exact fun h => hfaces ⟨hc, h⟩
        rw [fill_skip hskip, countIn_skip hopen, countIn_skip hskip, List.length_map, hcount]
  | take body after hbody ih =>
    cases args with
    | nil => exact ⟨[], fun i => iff_of_false List.not_mem_nil not_faces_zero, .nil, by simp [fill]⟩
    | cons arg args =>
      obtain ⟨harg, hargs⟩ := List.forall_mem_cons.1 hargs
      obtain ⟨opening, hmem, hpair, hcount⟩ := ih args hargs
      refine ⟨opening.map (· + (body.length + 2)), fun i => ?_, ?_, ?_⟩
      · rw [List.length_cons, faces_take hbody, List.mem_map]
        constructor
        · rintro ⟨j, hj, rfl⟩
          exact ⟨j, rfl, (hmem j).1 hj⟩
        · rintro ⟨j, rfl, hj⟩
          exact ⟨j, (hmem j).2 hj, rfl⟩
      · rw [List.pairwise_map]
        exact hpair.imp fun h => Nat.add_lt_add_right h _
      · rw [fill_take hbody, countIn_bare harg, countIn_take hbody, List.length_cons,
          List.length_map]
        omega

theorem count_substitute (template : String) (args : List String)
    (hargs : ∀ arg ∈ args, Bare arg.toList) :
    ∃ opening : List Nat,
      (∀ i, i ∈ opening ↔ Faces template.toList args.length i) ∧
      opening.Pairwise (· < ·) ∧
      count (substitute template args) =
        count template - min args.length (count template) + opening.length ∧
      (count (substitute template args) = count template - min args.length (count template) ↔
        ∀ i, ¬ Faces template.toList args.length i) := by
  obtain ⟨opening, hmem, hpair, hcount⟩ := exists_faces template.toList (args.map String.toList)
    (by simpa using hargs)
  rw [List.length_map] at hmem hcount
  have hsum : count (substitute template args) =
      count template - min args.length (count template) + opening.length := by
    rw [count, substitute, String.toList_ofList, count]
    omega
  refine ⟨opening, hmem, hpair, hsum, ?_⟩
  calc count (substitute template args) = count template - min args.length (count template)
      ↔ opening = [] := by rw [hsum, Nat.add_eq_left, List.length_eq_zero_iff]
    _ ↔ ∀ i, ¬ Faces template.toList args.length i := by
      simp only [List.eq_nil_iff_forall_not_mem, hmem]

theorem count_substitute_plural :
    (∀ arg ∈ ["a day", "two days"], Bare arg.toList) ∧
    ∃ opening : List Nat,
      (∀ i, i ∈ opening ↔
        Faces "{n, plural, one{1 day} other{# days}}".toList 2 i) ∧
      opening.Pairwise (· < ·) ∧
      count (substitute "{n, plural, one{1 day} other{# days}}"
        ["a day", "two days"]) = 2 - min 2 2 + opening.length ∧
      (count (substitute "{n, plural, one{1 day} other{# days}}"
        ["a day", "two days"]) = 2 - min 2 2 ↔
        ∀ i, ¬ Faces "{n, plural, one{1 day} other{# days}}".toList 2 i) := by
  have hargs : ∀ arg ∈ ["a day", "two days"], Bare arg.toList := by
    simp [Bare, isBrace]
  have hcount : count "{n, plural, one{1 day} other{# days}}" = 2 := by
    cbv
  have h := count_substitute "{n, plural, one{1 day} other{# days}}" _ hargs
  rw [hcount] at h
  exact ⟨hargs, h⟩

theorem count_substitute_nested :
    ¬ ∀ (template : String) (args : List String), (∀ arg ∈ args, Bare arg.toList) →
      count (substitute template args) = count template - min args.length (count template) := by
  intro h
  have hargs : ∀ arg ∈ ["1"], Bare arg.toList := by
    simp [Bare, isBrace]
  have hone := h "{{x}}" ["1"] hargs
  have hbefore : count "{{x}}" = 1 := by cbv
  have hafter : count (substitute "{{x}}" ["1"]) = 1 := by cbv
  rw [hbefore, hafter] at hone
  cases hone

end CrossReference.Text.Placeholder
