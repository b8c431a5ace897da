import CrossReference.Proofs.Reading.Layout
import CrossReference.Proofs.Reading.Lossless

/-!
Where a rule insists on another one. Pending trivia matter to a step that insists on its body only,
so what a rule does before it comes to such a step depends on the tokens ahead alone. All rules that
are insisted on take a token first.
-/

namespace CrossReference.Source

open Lookahead

namespace Step

variable {ρ : Type} {grammar : ρ → Step ρ} {ranking : Ranking ρ} {patient : ρ → List Token → Bool}

/-- Whether a step with `ts` ahead insists on nothing until it takes a token, if the rules it calls
do not where `patient` says so. -/
@[simp] def Patient (ranking : Ranking ρ) (patient : ρ → List Token → Bool) :
    Step ρ → List Token → Prop
  | .done, _ | .take, _ | .report _, _ => True
  | .look choose, ts => (choose ts).Patient ranking patient ts
  | .andThen s t, ts =>
    s.Patient ranking patient ts ∧ (s.advances ranking ts ∨ t.Patient ranking patient ts)
  | .node _ s, ts | .group s, ts | .wrap _ s, ts => s.Patient ranking patient ts
  | .insist _ _, _ => False
  | .repeatWhile test s, ts | .commaList test s, ts =>
    test ts = true → s.Patient ranking patient ts
  | .call rule, ts => patient rule ts = true

namespace Runs

variable {s t : Step ρ} {b m b' d d' : Builder}

theorem ahead_lt_or_eq (h : Runs grammar s b b') :
    b'.ahead.length < b.ahead.length ∨ b'.ahead = b.ahead := by
  rcases Nat.lt_or_ge b'.ahead.length b.ahead.length with hlt | hge
  · exact .inl hlt
  · exact .inr (h.ahead_suffix.eq_of_length_le hge)

theorem ahead_take_lt (h : b.ahead ≠ []) : b.take.ahead.length < b.ahead.length := by
  obtain ⟨t, ts, hb⟩ := List.exists_cons_of_ne_nil h
  rw [Builder.take_of_cons hb, hb]
  exact Nat.lt_succ_self _

theorem ahead_lt (hr : ranking.Respects grammar)
    (hp : ∀ rule ts, patient rule ts = true → (grammar rule).Patient ranking patient ts)
    (h : Runs grammar s b b') (hs : s.Patient ranking patient b.ahead)
    (ha : s.advances ranking b.ahead) : b'.ahead.length < b.ahead.length := by
  have later {x y z : Builder} {u : Step ρ} (hyz : Runs grammar u y z)
      (h : y.ahead.length < x.ahead.length) : z.ahead.length < x.ahead.length :=
    Nat.lt_of_le_of_lt hyz.ahead_suffix.length_le h
  induction h with
  | done | report => exact ha.elim
  | take b => exact ahead_take_lt ha
  | look _ ih | wrap _ ih => exact ih hs ha
  | node _ ih | group _ ih => exact ih hs ha
  | @andThen s t b m b' hfirst hsecond ihs iht =>
    rcases hfirst.ahead_lt_or_eq with hlt | heq
    · exact later hsecond hlt
    · by_cases hadv : s.advances ranking b.ahead
      · exact later hsecond (ihs hs.1 hadv)
      · have := iht (heq ▸ hs.2.resolve_left hadv) (heq ▸ ha.resolve_left hadv)
        rwa [heq] at this
  | insistMoved | insistStuck => exact hs.elim
  | repeatStop ht | commaStop ht => simp [ht] at ha
  | repeatTurn ht _ hrest ihs _ => exact later hrest (ihs (hs ht) ha.2)
  | commaLast ht _ _ ih => exact ih (hs ht) ha.2
  | commaMore ht _ _ hrest ihs _ =>
    exact later hrest (later (.take _) (ihs (hs ht) ha.2))
  | call _ ih => exact ih (hp _ _ hs) (hr.sure _ _ ha)

theorem stays (hr : ranking.Respects grammar)
    (hp : ∀ rule ts, patient rule ts = true → (grammar rule).Patient ranking patient ts)
    (h : Runs grammar s b b') (h' : Runs grammar s d d') (hd : d.ahead = b.ahead)
    (hs : s.Patient ranking patient b.ahead) (hb : b'.ahead = b.ahead) : d'.ahead = d.ahead := by
  induction h generalizing d d' with
  | done | report => cases h'; rfl
  | take b =>
    cases h'
    by_cases hnil : b.ahead = []
    · rw [Builder.take_of_nil (hd.trans hnil)]
      rfl
    · have := ahead_take_lt hnil
      simp [hb] at this
  | look _ ih => cases h' with | look h' => exact ih (hd ▸ h') hd hs hb
  | node _ ih =>
    cases h' with
    | node h' =>
      have hstay := ih h' hd hs hb
      exact hstay
  | group _ ih =>
    cases h' with
    | group h' =>
      have hstay := ih h' hd hs hb
      exact hstay
  | wrap _ ih =>
    cases h' with
    | wrap h' =>
      have hstay := ih h' hd hs hb
      exact hstay
  | call _ ih => cases h' with | call h' => exact ih h' hd (hp _ _ hs) hb
  | insistMoved | insistStuck => exact hs.elim
  | @andThen s t b m b' hfirst hsecond ihs iht =>
    cases h' with
    | @andThen _ _ _ m' _ hfirst' hsecond' =>
      have hm : m.ahead = b.ahead := by
        rcases hfirst.ahead_lt_or_eq with hlt | heq
        · have hle := hsecond.ahead_suffix.length_le
          rw [hb] at hle
          omega
        · exact heq
      have hm' : m'.ahead = d.ahead := ihs hfirst' hd hs.1 hm
      have hquiet : ¬ s.advances ranking b.ahead := by
        intro hadv
        have := hfirst.ahead_lt hr hp hs.1 hadv
        simp [hm] at this
      have := iht hsecond' (by rw [hm', hd, hm]) (hm ▸ hs.2.resolve_left hquiet) (hb.trans hm.symm)
      exact this.trans hm'
  | repeatStop ht =>
    cases h' with
    | repeatStop => rfl
    | repeatTurn ht' => simp [hd, ht] at ht'
  | repeatTurn ht hturn hrest _ _ =>
    have hstop := hrest.repeat_ends
    simp [hb, ht] at hstop
  | commaStop ht =>
    cases h' with
    | commaStop => rfl
    | commaLast ht' | commaMore ht' => simp [hd, ht] at ht'
  | commaLast ht _ hcomma ih =>
    cases h' with
    | commaStop => rfl
    | commaLast _ hlast' _ => exact ih hlast' hd (hs ht) hb
    | commaMore _ hturn' hcomma' _ =>
      have hm' := ih hturn' hd (hs ht) hb
      simp [hm', hd, ← hb, hcomma] at hcomma'
  | @commaMore _ _ b m b' _ hturn hcomma hrest _ _ =>
    have hlt := ahead_take_lt (ne_nil_of_startsWith hcomma)
    have hle := hrest.ahead_suffix.length_le
    have hle' := hturn.ahead_suffix.length_le
    rw [hb] at hle
    omega

end Runs

section Forms

variable {ts : List Token}

@[simp] theorem patient_ite (c : Prop) [Decidable c] (s t : Step ρ) :
    (if c then s else t).Patient ranking patient ts ↔
      (c → s.Patient ranking patient ts) ∧ (¬ c → t.Patient ranking patient ts) := by
  split <;> simp [*]

@[simp] theorem patient_given (test : List Token → Bool) (s : Step ρ) :
    (given test s).Patient ranking patient ts ↔
      (test ts = true → s.Patient ranking patient ts) := by
  simp [given]

@[simp] theorem patient_takeMany (n : Nat) :
    (takeMany n : Step ρ).Patient ranking patient ts := by
  induction n with
  | zero => trivial
  | succ n ih => exact ⟨trivial, .inr ih⟩

end Forms

end Step

namespace Grammar

open Step

variable {ts : List Token}

/-- A bracketed rule insists on its elements right away only if its opening bracket is missing. -/
def patient : Rule → List Token → Bool
  | .block, ts => startsWith .lBrace ts
  | .argList, ts => startsWith .lParen ts
  | .collection form, ts => startsWithAny [.constKw, .lAngle, form.opening] ts
  | _, _ => true

abbrev IsPatient (s : Act) (ts : List Token) : Prop := s.Patient ranking patient ts

@[simp] theorem patient_eat (kind : TokenKind) : IsPatient (eat kind) ts := by
  simp [eat]

@[simp] theorem patient_expect (kind : TokenKind) : IsPatient (expect kind) ts := by
  simp [expect]

@[simp] theorem patient_takeGroup : IsPatient takeGroup ts := by
  simp [takeGroup]

@[simp] theorem patient_name : IsPatient name ts := by
  simp [name]

@[simp] theorem patient_qualifiers : IsPatient qualifiers ts := by
  simp [qualifiers, inOrder]

@[simp] theorem patient_skipGroup (message : String) : IsPatient (skipGroup message) ts := by
  simp [skipGroup, inOrder]

theorem patient_declarationForm (owner : Option String) :
    IsPatient (declarationForm owner ts) ts := by
  rw [declarationForm]
  cases typedName? ts with
  | none => simp [inOrder, patient]
  | some named => simp [typedDeclaration, inOrder, patient]

theorem patient_wordStatement : IsPatient (wordStatement ts) ts := by
  rw [wordStatement]
  cases typedName? ts <;> simp [inOrder, patient]

theorem patient_primary {s : Act} (h : primary? ts = some s) : IsPatient s ts := by
  rcases primary?_cases h with rfl | rfl | rfl | ⟨form, hf, rfl⟩ | rfl | rfl | ⟨hne, rfl⟩
  · simp [nameRef]
  · simp
  · simp
  · simp [patient, hf]
  · simp [patient]
  · simp [inOrder, patient]
  · simp [inOrder, hne]

theorem patient_suffix {s : Act} (h : suffix? ts = some s) : IsPatient s ts := by
  obtain ⟨hne, rfl | ⟨hp, rfl⟩ | rfl | rfl | rfl⟩ := suffix?_cases h
  · simp [nameRef, inOrder]
  · simp [patient, hp]
  · simp [inOrder, patient, sure, hne]
  · simp [inOrder, hne]
  · simp

theorem patient_body (rule : Rule) (ts : List Token) (h : patient rule ts = true) :
    IsPatient (body rule) ts := by
  cases rule with
  | item => simp [body, item, patient]
  | importDirective => simp [body, importDirective, inOrder]
  | directive => simp [body, directive, inOrder]
  | metadata => cases ts <;> simp [body, metadata, inOrder]
  | unsupportedItem => simp [body, unsupportedItem, inOrder]
  | classDecl => cases ts <;> simp [body, classDecl, classBody, inOrder, patient]
  | member owner => simp [body, member, patient]
  | declaration owner => simp [body, declaration, inOrder, patient_declarationForm]
  | constructorRest => simp [body, constructorRest, inOrder, patient]
  | functionRest => simp [body, functionRest, inOrder, patient]
  | declarators => cases ts <;> simp [body, declarators, inOrder]
  | typeRef => cases ts <;> simp [body, typeRef, inOrder, patient]
  | typeArgs => cases ts <;> simp [body, typeArgs, inOrder, patient]
  | paramList => simp [body, paramList, parameterOrMark, inOrder, patient]
  | param => cases ts <;> simp [body, param, inOrder, patient]
  | functionBody inExpression =>
    cases ts <;> cases inExpression <;> simp [body, functionBody, bodyMark, inOrder, patient]
  | block => simp_all [body, block, inOrder, patient]
  | statement =>
    cases ts <;>
      simp +contextual [body, statement, inOrder, patient, guardedBlock, patient_wordStatement]
  | localVar => simp [body, localVar, inOrder, patient]
  | exprStmt => simp [body, exprStmt, inOrder, patient]
  | expr => cases ts <;> simp [body, expr, inOrder, patient]
  | unary => cases ts <;> simp [body, unary, inOrder, patient, atPrefixOperator, startsWithOperator]
  | operand =>
    simp only [body, operand, Step.Patient]
    cases hp : primary? ts with
    | none => simp [missingExpr, inOrder]
    | some primary =>
      refine ⟨patient_primary hp, .inr fun ht => ?_⟩
      obtain ⟨s, hs⟩ := Option.isSome_iff_exists.1 ht
      simpa [hs] using patient_suffix hs
  | collection form =>
    by_cases hc : startsWith .constKw ts
    · simp [body, collection, inOrder, hc]
    · by_cases ha : startsWith .lAngle ts
      · have hne := ne_nil_of_startsWith ha
        simp [body, collection, inOrder, patient, sure, ha, hne]
      · have ho : startsWith form.opening ts = true := by
          simpa [patient, startsWithAny_cons, startsWithAny_empty, hc, ha] using h
        simp [body, collection, inOrder, ha, ho]
  | newExpr => cases ts <;> simp [body, newExpr, inOrder]
  | argList => simp_all [body, argList, inOrder, patient]

end Grammar

end CrossReference.Source
