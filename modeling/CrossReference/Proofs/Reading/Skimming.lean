import CrossReference.Proofs.Reading.Naming
import CrossReference.Proofs.Reading.Ranking

namespace CrossReference.Source

namespace Lookahead

variable {ts us vs : List Token}

theorem exists_cons_of_startsWith {kind : TokenKind} (h : startsWith kind ts = true) :
    ∃ t rest, ts = t :: rest ∧ t.kind = kind := by
  obtain ⟨t, rest, rfl⟩ := List.exists_cons_of_ne_nil (ne_nil_of_startsWith h)
  exact ⟨t, rest, rfl, by simpa [startsWith, kind?] using h⟩

@[simp] theorem startsWith_cons (kind : TokenKind) (t : Token) (ts : List Token) :
    startsWith kind (t :: ts) = (t.kind == kind) := by
  simp [startsWith, kind?]

theorem startsWith_append {kind : TokenKind} (h : startsWith kind ts = true) (us : List Token) :
    startsWith kind (ts ++ us) = true := by
  obtain ⟨t, rest, rfl, ht⟩ := exists_cons_of_startsWith h
  simp [ht]

theorem startsWith_ne {kind other : TokenKind} (h : startsWith kind ts = true)
    (hne : kind ≠ other) : startsWith other ts = false := by
  obtain ⟨t, rest, rfl, ht⟩ := exists_cons_of_startsWith h
  simpa [ht] using hne

theorem startsWith_of_afterType? (h : afterType? ts = some us) : startsWith .ident ts = true := by
  match ts, h with
  | t :: ts, h =>
    by_cases hident : t.kind = .ident
    · simp [hident]
    · simp [afterType?, hident] at h

theorem afterType?_cons {t : Token} (ht : t.kind = .ident) :
    afterType? (t :: ts) =
      (if startsWith .lAngle (afterQualifiers ts) then afterAngles? 0 (afterQualifiers ts)
        else some (afterQualifiers ts)).bind fun applied =>
          (afterFunctionPart? (t.text == "Function" && startsWith .lParen ts) applied).map
            afterQuestion := by
  rw [afterType?, if_neg (by simp [ht])]
  simp only [Option.map_eq_bind]
  split <;> rfl

theorem typedName?_eq_some_iff :
    typedName? ts = some us ↔ afterType? ts = some us ∧ startsWith .ident us = true := by
  rw [typedName?]
  cases afterType? ts with
  | none => simp
  | some rest =>
    simp only [Option.ite_none_right_eq_some, Option.some.injEq]
    constructor
    · rintro ⟨hname, rfl⟩
      exact ⟨rfl, hname⟩
    · rintro ⟨rfl, hname⟩
      exact ⟨hname, rfl⟩

theorem afterGroup?_suffix (depth : Nat) (ts : List Token) :
    (afterGroup? depth ts).getD [] <:+ ts.tail := by
  induction ts generalizing depth with
  | nil => exact List.suffix_refl _
  | cons t ts ih =>
    rw [afterGroup?]
    split
    · exact List.nil_suffix
    · split
      · exact List.suffix_refl _
      · exact (ih _).trans ts.tail_suffix

theorem drop_groupLength {depth : Nat} (h : depth ≠ 0) :
    ts.drop (groupLength depth ts) = (afterGroup? depth ts).getD [] := by
  induction ts generalizing depth with
  | nil => rfl
  | cons t ts ih =>
    rw [groupLength, afterGroup?]
    by_cases hdepth : depthAfter depth t.kind = 0
    · simp [h, hdepth]
    · simp [h, hdepth, ih hdepth]

theorem drop_group (h : startsWith .lParen ts = true) :
    ts.drop (groupLength 0 ts) = (afterGroup? 0 ts).getD [] := by
  obtain ⟨t, rest, rfl, ht⟩ := exists_cons_of_startsWith h
  have hopen : depthAfter 0 t.kind = 1 := by simp [depthAfter, ht, TokenKind.isOpener]
  have hcloser : t.kind.isCloser = false := by simp [ht, TokenKind.isCloser]
  simp [groupLength, afterGroup?, hopen, hcloser, drop_groupLength]

inductive Qualifiers : List Token → Prop
  | nil : Qualifiers []
  | cons {dot name : Token} {ts : List Token} :
      dot.kind = .dot → name.kind = .ident → Qualifiers ts → Qualifiers (dot :: name :: ts)

theorem Qualifiers.append (h : Qualifiers ts) (h' : Qualifiers us) : Qualifiers (ts ++ us) := by
  induction h with
  | nil => exact h'
  | cons hdot hname _ ih => exact .cons hdot hname ih

theorem Qualifiers.after (h : Qualifiers ts) (hend : Grammar.followedBy .dot .ident us = false) :
    afterQualifiers (ts ++ us) = us := by
  induction h with
  | nil =>
    match us, hend with
    | [], _ | [_], _ => rfl
    | d :: n :: us, hend =>
      have hend : ¬ (d.kind = .dot ∧ n.kind = .ident) := by
        simpa [Grammar.followedBy, kindAt?] using hend
      simp [afterQualifiers, hend]
  | cons hdot hname _ ih => simpa [afterQualifiers, hdot, hname] using ih

theorem Qualifiers.nil_or_dot (h : Qualifiers ts) : ts = [] ∨ startsWith .dot ts = true := by
  cases h with
  | nil => exact .inl rfl
  | cons hdot _ _ => exact .inr (by simp [hdot])

def hasParen (ts : List Token) : Bool := ts.any fun t => t.kind = .lParen

@[simp] theorem hasParen_append : hasParen (ts ++ us) = (hasParen ts || hasParen us) := by
  simp [hasParen]

section Counting

variable {t : Token} {depth : Nat}

theorem afterAngles?_open (ht : t.kind = .lAngle) :
    afterAngles? depth (t :: ts) = afterAngles? (depth + 1) ts := by
  simp [afterAngles?, ht]

theorem afterAngles?_close (ht : t.kind = .rAngle) :
    afterAngles? (depth + 1) (t :: ts) = if depth = 0 then some ts else afterAngles? depth ts := by
  cases depth <;> simp [afterAngles?, ht]

theorem afterAngles?_pass (ht : t.kind ∈ [.ident, .comma, .dot, .question]) :
    afterAngles? (depth + 1) (t :: ts) = afterAngles? (depth + 1) ts := by
  simp only [List.mem_cons, List.not_mem_nil, or_false] at ht
  rcases ht with ht | ht | ht | ht <;> simp [afterAngles?, ht]

end Counting

/-- Counting angles goes over `taken` as if it were not there, or gives up at a parenthesis. -/
def Skimmed (taken us : List Token) : Prop :=
  ∀ depth, afterAngles? (depth + 1) (taken ++ us) =
    if hasParen taken then none else afterAngles? (depth + 1) us

def ClosesAngles (args us : List Token) : Prop :=
  ∀ depth, afterAngles? depth (args ++ us) =
    if hasParen args then none else if depth = 0 then some us else afterAngles? depth us

namespace Skimmed

variable {t : Token}

theorem nil : Skimmed [] us := fun _ => rfl

theorem append (h : Skimmed ts (us ++ vs)) (h' : Skimmed us vs) : Skimmed (ts ++ us) vs := by
  intro depth
  rw [List.append_assoc, h, h', hasParen_append]
  cases hasParen ts <;> simp

theorem cons (ht : t.kind ∈ [.ident, .comma, .dot, .question]) (h : Skimmed ts us) :
    Skimmed (t :: ts) us := by
  intro depth
  have hkind : t.kind ≠ .lParen := by
    intro hparen
    simp [hparen] at ht
  rw [List.cons_append, afterAngles?_pass ht, h depth]
  simp [hasParen, hkind]

theorem paren (ht : t.kind = .lParen) : Skimmed (t :: ts) us := by
  intro depth
  simp [afterAngles?, hasParen, ht]

end Skimmed

theorem Qualifiers.skimmed (h : Qualifiers ts) : Skimmed ts us := by
  induction h with
  | nil => exact .nil
  | cons hdot hname _ ih => exact .cons (by simp [hdot]) (.cons (by simp [hname]) ih)

theorem ClosesAngles.skimmed (h : ClosesAngles ts us) : Skimmed ts us :=
  fun depth => by simpa using h (depth + 1)

theorem Skimmed.closesAngles {l r : Token} (hl : l.kind = .lAngle) (hr : r.kind = .rAngle)
    (h : Skimmed ts (r :: us)) : ClosesAngles (l :: (ts ++ [r])) us := by
  intro depth
  have hparen : hasParen (l :: (ts ++ [r])) = hasParen ts := by simp [hasParen, hl, hr]
  calc afterAngles? depth (l :: (ts ++ [r]) ++ us)
      = afterAngles? (depth + 1) (ts ++ r :: us) := by simp [afterAngles?_open hl]
    _ = if hasParen ts then none else afterAngles? (depth + 1) (r :: us) := h depth
    _ = _ := by rw [hparen, afterAngles?_close hr]

theorem exists_functionPart (bare : Bool) (ts : List Token) :
    ∃ part, ts = part ++ (afterFunctionPart? bare ts).getD [] ∧
      Skimmed part ((afterFunctionPart? bare ts).getD []) := by
  rw [afterFunctionPart?]
  split
  · next h =>
    match ts, h with
    | [_], h => simp [kindAt?] at h
    | f :: l :: ts, h =>
      obtain ⟨pre, hpre⟩ := afterGroup?_suffix 0 (l :: ts)
      have hf : f.kind = .ident ∧ l.kind = .lParen := by
        simp only [startsWithWord, word?, kindAt?] at h
        grind
      refine ⟨f :: l :: pre, ?_, .cons (by simp [hf]) (.paren hf.2)⟩
      rw [List.tail_cons] at hpre
      simp [hpre]
  · split
    · next h =>
      obtain ⟨l, ts, rfl, hl⟩ := exists_cons_of_startsWith (Bool.and_eq_true_iff.1 h).2
      obtain ⟨pre, hpre⟩ := afterGroup?_suffix 0 (l :: ts)
      refine ⟨l :: pre, ?_, .paren hl⟩
      rw [List.tail_cons] at hpre
      simp [hpre]
    · exact ⟨[], rfl, .nil⟩

theorem exists_question (ts : List Token) :
    ∃ mark, ts = mark ++ afterQuestion ts ∧ Skimmed mark (afterQuestion ts) := by
  rw [afterQuestion]
  split
  · next h =>
    obtain ⟨q, ts, rfl, hq⟩ := exists_cons_of_startsWith h
    exact ⟨[q], rfl, .cons (by simp [hq]) .nil⟩
  · exact ⟨[], rfl, .nil⟩

theorem afterFunctionPart?_paren (h : startsWith .lParen ts = true) :
    afterFunctionPart? false ts = some ts := by
  obtain ⟨l, rest, rfl, hl⟩ := exists_cons_of_startsWith h
  simp [afterFunctionPart?, startsWithWord, word?, hl]

theorem afterFunctionPart?_congr {bare bare' : Bool}
    (h : startsWith .lParen ts = true → bare = bare') :
    afterFunctionPart? bare ts = afterFunctionPart? bare' ts := by
  cases hparen : startsWith .lParen ts with
  | true => rw [h hparen]
  | false => simp [afterFunctionPart?, hparen]

end Lookahead

end CrossReference.Source
