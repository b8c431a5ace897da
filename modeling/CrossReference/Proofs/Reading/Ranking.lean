import CrossReference.Proofs.Reading.Bounded
import CrossReference.Source.Parse

namespace CrossReference.Source

open Lookahead

namespace Step

variable {ρ : Type} {ranking : Ranking ρ} {d : Nat} {ts : List Token}

@[simp] theorem advances_ite (c : Prop) [Decidable c] (s t : Step ρ) :
    (if c then s else t).advances ranking ts ↔
      (c → s.advances ranking ts) ∧ (¬ c → t.advances ranking ts) := by
  split <;> simp [*]

@[simp] theorem steady_ite (c : Prop) [Decidable c] (s t : Step ρ) :
    (if c then s else t).steady ranking ↔ (c → s.steady ranking) ∧ (¬ c → t.steady ranking) := by
  split <;> simp [*]

@[simp] theorem descends_ite (c : Prop) [Decidable c] (s t : Step ρ) :
    (if c then s else t).descends ranking d ts ↔
      (c → s.descends ranking d ts) ∧ (¬ c → t.descends ranking d ts) := by
  split <;> simp [*]

@[simp] theorem turns_iff {s : Step ρ} {test : List Token → Bool} (h : test [] = false) :
    s.turns ranking test ↔
      ∀ t ts, test (t :: ts) = true → s.advances ranking (t :: ts) := by
  constructor
  · exact fun hs t ts => hs (t :: ts)
  · intro hs ts ht
    cases ts with
    | nil => simp [h] at ht
    | cons t ts => exact hs t ts ht

@[simp] theorem steady_given (test : List Token → Bool) (s : Step ρ) :
    (given test s).steady ranking ↔ ((∃ ts, test ts = true) → s.steady ranking) := by
  simp [given]

@[simp] theorem advances_given (test : List Token → Bool) (s : Step ρ) :
    (given test s).advances ranking ts ↔ test ts = true ∧ s.advances ranking ts := by
  simp only [given, advances, advances_ite]
  grind

@[simp] theorem descends_given (test : List Token → Bool) (s : Step ρ) :
    (given test s).descends ranking d ts ↔ (test ts = true → s.descends ranking d ts) := by
  simp [given]

@[simp] theorem advances_takeMany (n : Nat) :
    (takeMany n : Step ρ).advances ranking ts ↔ n ≠ 0 ∧ ts ≠ [] := by
  induction n with
  | zero => simp [takeMany]
  | succ n ih => simp [takeMany, ih]

@[simp] theorem steady_takeMany (n : Nat) : (takeMany n : Step ρ).steady ranking := by
  induction n with
  | zero => trivial
  | succ n ih => exact ⟨trivial, ih⟩

@[simp] theorem descends_takeMany (n : Nat) : (takeMany n : Step ρ).descends ranking d ts := by
  induction n with
  | zero => trivial
  | succ n ih => exact ⟨trivial, .inr ih⟩

end Step

namespace Lookahead

variable {ts : List Token}

@[simp] theorem startsWith_nil (kind : TokenKind) : startsWith kind [] = false := by
  simp [startsWith, kind?]

@[simp] theorem startsWithAny_nil (kinds : List TokenKind) : startsWithAny kinds [] = false := by
  simp [startsWithAny]

theorem ne_nil_of_startsWith {kind : TokenKind} (h : startsWith kind ts = true) : ts ≠ [] := by
  rintro rfl
  simp at h

theorem startsWithAny_empty : startsWithAny [] ts = false := by
  cases ts <;> rfl

theorem startsWithAny_cons (kind : TokenKind) (kinds : List TokenKind) :
    startsWithAny (kind :: kinds) ts = (startsWith kind ts || startsWithAny kinds ts) := by
  cases ts <;> simp [startsWithAny, startsWith, kind?, Bool.beq_eq_decide_eq]

theorem groupLength_ne_zero {depth : Nat} : groupLength depth ts ≠ 0 ↔ ts ≠ [] := by
  cases ts with
  | nil => simp [groupLength]
  | cons t ts =>
    rw [groupLength]
    split <;> simp

end Lookahead

namespace Grammar

open Step

def sure : Rule → List Token → Bool
  | .metadata, ts | .typeRef, ts | .typeArgs, ts => !ts.isEmpty
  | .param, ts => startsWithAny [.ident, .thisKw, .superKw, .finalKw, .constKw, .varKw] ts
  | .argList, ts => startsWith .lParen ts
  | _, _ => false

/-- A block, an argument list and a collection that do not find their opening bracket go on to
their elements, so only there they rank above statements and expressions. -/
def rank : Rule → List Token → Nat
  | .importDirective, _ | .directive, _ | .metadata, _ | .unsupportedItem, _ | .typeRef, _
  | .typeArgs, _ | .declarators, _ | .newExpr, _ => 0
  | .classDecl, _ | .param, _ | .localVar, _ | .functionBody _, _ => 1
  | .paramList, _ => 2
  | .operand, _ | .constructorRest, _ | .functionRest, _ => 3
  | .unary, _ | .declaration _, _ => 4
  | .expr, _ | .member _, _ => 5
  | .item, _ | .exprStmt, _ => 6
  | .statement, _ => 7
  | .block, ts => if startsWith .lBrace ts then 0 else 8
  | .argList, ts => if startsWith .lParen ts then 0 else 6
  | .collection form, ts => if startsWithAny [.constKw, .lAngle, form.opening] ts then 1 else 6

def ranking : Ranking Rule := ⟨sure, rank, 31⟩

@[simp] theorem ranking_sure : ranking.sure = sure := rfl

@[simp] theorem ranking_rank : ranking.rank = rank := rfl

theorem rank_lt (rule : Rule) (ts : List Token) : rank rule ts < 31 := by
  cases rule <;> simp only [rank] <;> first | omega | (split <;> omega)

variable {d : Nat} {ts : List Token}

@[simp] theorem advances_eat (kind : TokenKind) :
    (eat kind).advances ranking ts ↔ startsWith kind ts = true := by
  simp only [eat, advances_given, advances, and_iff_left_iff_imp]
  exact ne_nil_of_startsWith

@[simp] theorem advances_expect (kind : TokenKind) :
    (expect kind).advances ranking ts ↔ startsWith kind ts = true := by
  simp only [expect, advances, advances_ite, imp_false, Decidable.not_not, and_iff_right_iff_imp]
  exact fun h _ => ne_nil_of_startsWith h

@[simp] theorem advances_takeGroup : takeGroup.advances ranking ts ↔ ts ≠ [] := by
  simp [takeGroup, groupLength_ne_zero]

@[simp] theorem advances_name : name.advances ranking ts ↔ startsWith .ident ts = true := by
  simp only [name, advances, advances_ite, imp_false, Decidable.not_not, and_iff_right_iff_imp]
  exact fun h _ => ne_nil_of_startsWith h

@[simp] theorem advances_skipGroup (message : String) :
    (skipGroup message).advances ranking ts ↔ ts ≠ [] := by
  simp [skipGroup, inOrder]

@[simp] theorem descends_eat (kind : TokenKind) : (eat kind).descends ranking d ts := by
  simp [eat]

@[simp] theorem descends_expect (kind : TokenKind) : (expect kind).descends ranking d ts := by
  simp [expect]

@[simp] theorem descends_takeGroup : takeGroup.descends ranking d ts := by
  simp [takeGroup]

@[simp] theorem descends_skipGroup (message : String) :
    (skipGroup message).descends ranking d ts := by
  simp [skipGroup, inOrder]

@[simp] theorem descends_name : name.descends ranking d ts := by
  simp [name]

@[simp] theorem descends_qualifiers : qualifiers.descends ranking d ts := by
  simp [qualifiers, inOrder]

theorem descends_declarationForm (owner : Option String) :
    (declarationForm owner ts).descends ranking 4 ts := by
  rw [declarationForm]
  cases typedName? ts with
  | none => simp [inOrder, rank]
  | some named => simp [typedDeclaration, inOrder, rank]

theorem descends_wordStatement : (wordStatement ts).descends ranking 7 ts := by
  rw [wordStatement]
  cases typedName? ts with
  | none => simp [rank]
  | some named => simp [inOrder, rank]

theorem startsWith_of_kind? {kind : TokenKind} (h : kind? ts = some kind) :
    startsWith kind ts = true := by
  simp [startsWith, h]

theorem startsWithAny_of_kind? {kinds : List TokenKind} {kind : TokenKind}
    (h : kind? ts = some kind) (hk : kind ∈ kinds) : startsWithAny kinds ts = true := by
  cases ts with
  | nil => simp [kind?] at h
  | cons t ts =>
    obtain rfl : t.kind = kind := by simpa [kind?] using h
    simpa [startsWithAny] using hk

theorem ne_nil_of_kind? {kind : TokenKind} (h : kind? ts = some kind) : ts ≠ [] :=
  ne_nil_of_startsWith (startsWith_of_kind? h)

theorem primary?_cases {s : Act} (h : primary? ts = some s) :
    s = nameRef ∨ s = .node .literal .take ∨
    s = .node .stringLiteral (.repeatWhile (startsWith .string) .take) ∨
    (∃ form, startsWithAny [.constKw, .lAngle, form.opening] ts = true ∧
      s = .call (.collection form)) ∨
    s = .call .newExpr ∨
    s = .node .closure (inOrder [.call .paramList, .call (.functionBody true)]) ∨
    (ts ≠ [] ∧ s = .node .parenExpr (inOrder [.take, .call .expr, expect .rParen])) := by
  unfold primary? at h
  split at h
  case h_10 hk | h_11 hk =>
    cases h
    exact .inr <| .inr <| .inr <| .inl
      ⟨_, startsWithAny_of_kind? hk (by simp [CollectionForm.opening]), rfl⟩
  case h_12 hk =>
    obtain ⟨form, _, rfl⟩ := Option.map_eq_some_iff.1 h
    exact .inr <| .inr <| .inr <| .inl ⟨form, startsWithAny_of_kind? hk (by simp), rfl⟩
  case h_13 hk =>
    split at h <;> cases h
    · exact .inr <| .inr <| .inr <| .inl ⟨_, startsWithAny_of_kind? hk (by simp), rfl⟩
    · exact .inr <| .inr <| .inr <| .inl ⟨_, startsWithAny_of_kind? hk (by simp), rfl⟩
    · exact .inr <| .inr <| .inr <| .inl ⟨_, startsWithAny_of_kind? hk (by simp), rfl⟩
    · simp
  case h_15 hk =>
    split at h <;> cases h
    · simp
    · simp [ne_nil_of_kind? hk]
  all_goals cases h
  all_goals simp

theorem startsWith_string_of_primary
    (h : primary? ts = some (.node .stringLiteral (.repeatWhile (startsWith .string) .take))) :
    startsWith .string ts = true := by
  unfold primary? at h
  split at h
  case h_4 hk => exact startsWith_of_kind? hk
  case h_12 =>
    obtain ⟨form, _, heq⟩ := Option.map_eq_some_iff.1 h
    cases heq
  case h_13 => split at h <;> cases h
  case h_15 => split at h <;> cases h
  all_goals cases h

theorem suffix?_cases {s : Act} (h : suffix? ts = some s) :
    ts ≠ [] ∧
    (s = .wrap .memberExpr (inOrder [.take, nameRef]) ∨
    (startsWith .lParen ts = true ∧ s = .wrap .callExpr (.call .argList)) ∨
    s = .wrap .callExpr (inOrder [.call .typeArgs, .call .argList]) ∨
    s = .wrap .indexExpr (inOrder [.take, .call .expr, expect .rBrack]) ∨
    s = .wrap .postfixExpr .take) := by
  unfold suffix? at h
  split at h
  case h_8 => cases h
  case h_3 hk =>
    cases h
    exact ⟨ne_nil_of_kind? hk, .inr (.inl ⟨startsWith_of_kind? hk, rfl⟩)⟩
  case h_5 hk | h_6 hk =>
    cases h
    exact ⟨ne_nil_of_kind? hk, by simp⟩
  all_goals
    rename_i hk
    split at h
    · cases h
      exact ⟨ne_nil_of_kind? hk, by simp⟩
    · cases h

theorem descends_primary {s : Act} (h : primary? ts = some s) : s.descends ranking 3 ts := by
  rcases primary?_cases h with rfl | rfl | rfl | ⟨form, hf, rfl⟩ | rfl | rfl | ⟨hne, rfl⟩
  · simp [nameRef]
  · simp
  · simp
  · simp [rank, hf]
  · simp [rank]
  · simp [inOrder, rank]
  · simp [inOrder, hne]

theorem descends_suffix {s : Act} (h : suffix? ts = some s) : s.descends ranking 3 ts := by
  obtain ⟨hne, rfl | ⟨hp, rfl⟩ | rfl | rfl | rfl⟩ := suffix?_cases h
  · simp [nameRef, inOrder]
  · simp [rank, hp]
  · simp [inOrder, rank, sure, hne]
  · simp [inOrder, hne]
  · simp

theorem descends_body (rule : Rule) (ts : List Token) :
    (body rule).descends ranking (rank rule ts) ts := by
  cases rule with
  | item => simp [body, item, rank]
  | importDirective => simp [body, importDirective, inOrder]
  | directive => simp [body, directive, inOrder]
  | metadata => cases ts <;> simp [body, metadata, inOrder]
  | unsupportedItem => simp [body, unsupportedItem, inOrder]
  | classDecl => cases ts <;> simp [body, classDecl, classBody, inOrder, rank]
  | member owner => simp [body, member, rank]
  | declaration owner => simp [body, declaration, inOrder, descends_declarationForm, rank]
  | constructorRest => simp [body, constructorRest, inOrder, rank]
  | functionRest => simp [body, functionRest, inOrder, rank]
  | declarators => cases ts <;> simp [body, declarators, inOrder]
  | typeRef => cases ts <;> simp [body, typeRef, inOrder, rank]
  | typeArgs => cases ts <;> simp [body, typeArgs, inOrder, rank]
  | paramList => simp [body, paramList, parameterOrMark, inOrder, rank]
  | param => cases ts <;> simp [body, param, inOrder, rank]
  | functionBody inExpression =>
    cases ts <;> cases inExpression <;> simp [body, functionBody, bodyMark, inOrder, rank]
  | block => by_cases h : startsWith .lBrace ts <;> simp [body, block, inOrder, rank, h]
  | statement =>
    cases ts <;>
      simp +contextual [body, statement, inOrder, rank, guardedBlock, descends_wordStatement]
  | localVar => simp [body, localVar, inOrder, rank]
  | exprStmt => simp [body, exprStmt, inOrder, rank]
  | expr => cases ts <;> simp [body, expr, inOrder, rank]
  | unary => cases ts <;> simp [body, unary, inOrder, rank, atPrefixOperator, startsWithOperator]
  | operand =>
    simp only [body, operand, descends]
    cases h : primary? ts with
    | none => simp [missingExpr, inOrder]
    | some primary =>
      refine ⟨descends_primary h, .inr fun ht => ?_⟩
      obtain ⟨s, hs⟩ := Option.isSome_iff_exists.1 ht
      simpa [hs, rank] using descends_suffix hs
  | collection form =>
    by_cases hc : startsWith .constKw ts
    · simp [body, collection, inOrder, hc]
    · by_cases ha : startsWith .lAngle ts
      · have hne := ne_nil_of_startsWith ha
        simp [body, collection, inOrder, rank, sure, startsWithAny_cons, ha, hne]
      · by_cases ho : startsWith form.opening ts
        · simp [body, collection, inOrder, ha, ho]
        · have hr : rank (.collection form) ts = 6 := by
            simp [rank, startsWithAny_cons, startsWithAny_empty, hc, ha, ho]
          rw [hr]
          simp [body, collection, element, inOrder, rank, ha]
  | newExpr => cases ts <;> simp [body, newExpr, inOrder, rank]
  | argList =>
    by_cases h : startsWith .lParen ts
    · simp [body, argList, inOrder, h]
    · cases ts <;> simp [body, argList, argument, inOrder, rank, h]

@[simp] theorem steady_eat (kind : TokenKind) : (eat kind).steady ranking := by
  simp [eat]

@[simp] theorem steady_expect (kind : TokenKind) : (expect kind).steady ranking := by
  simp [expect]

@[simp] theorem steady_takeGroup : takeGroup.steady ranking := by
  simp [takeGroup]

@[simp] theorem steady_skipGroup (message : String) : (skipGroup message).steady ranking := by
  simp [skipGroup, inOrder]

@[simp] theorem steady_name : name.steady ranking := by
  simp [name]

@[simp] theorem steady_qualifiers : qualifiers.steady ranking := by
  simp [qualifiers, inOrder, followedBy]

theorem steady_declarationForm (owner : Option String) :
    (declarationForm owner ts).steady ranking := by
  rw [declarationForm]
  cases typedName? ts with
  | none => simp [inOrder]
  | some named => simp [typedDeclaration, inOrder, before]

theorem steady_wordStatement : (wordStatement ts).steady ranking := by
  rw [wordStatement]
  cases typedName? ts <;> simp [inOrder]

theorem steady_primary {s : Act} (h : primary? ts = some s) : s.steady ranking := by
  rcases primary?_cases h with rfl | rfl | rfl | ⟨form, hf, rfl⟩ | rfl | rfl | ⟨hne, rfl⟩
  all_goals simp [nameRef, inOrder]

theorem steady_suffix {s : Act} (h : suffix? ts = some s) : s.steady ranking := by
  obtain ⟨hne, rfl | ⟨hp, rfl⟩ | rfl | rfl | rfl⟩ := suffix?_cases h
  all_goals simp [nameRef, inOrder]

theorem advances_suffix {s : Act} (h : suffix? ts = some s) : s.advances ranking ts := by
  obtain ⟨hne, rfl | ⟨hp, rfl⟩ | rfl | rfl | rfl⟩ := suffix?_cases h
  · simp [inOrder, hne]
  · simp [sure, hp]
  · simp [inOrder, sure, hne]
  · simp [inOrder, hne]
  · simp [hne]

theorem steady_body (rule : Rule) : (body rule).steady ranking := by
  cases rule with
  | item => simp [body, item]
  | importDirective => simp [body, importDirective, inOrder, before]
  | directive => simp [body, directive, inOrder, before]
  | metadata => simp [body, metadata, inOrder]
  | unsupportedItem => simp [body, unsupportedItem, inOrder, before]
  | classDecl => simp [body, classDecl, classBody, inOrder, before]
  | member owner => simp [body, member]
  | declaration owner =>
    simp [body, declaration, inOrder, steady_declarationForm, atModifier, startsWithAnyWord, word?]
  | constructorRest => simp [body, constructorRest, inOrder, before]
  | functionRest => simp [body, functionRest, inOrder]
  | declarators => simp [body, declarators, inOrder]
  | typeRef => simp [body, typeRef, inOrder]
  | typeArgs => simp [body, typeArgs, inOrder]
  | paramList => simp +contextual [body, paramList, parameterOrMark, inOrder, before, sure]
  | param => simp [body, param, inOrder, startsWithWord, word?]
  | functionBody inExpression => simp [body, functionBody, bodyMark, inOrder]
  | block => simp [body, block, inOrder, before]
  | statement =>
    simp [body, statement, inOrder, guardedBlock, steady_wordStatement, startsWithAnyWord, word?]
  | localVar => simp [body, localVar, inOrder]
  | exprStmt => simp [body, exprStmt, inOrder]
  | expr =>
    simp [body, expr, inOrder, atBinaryOperator, startsWithOperator, startsWithAnyWord, word?]
  | unary => simp [body, unary, inOrder]
  | operand =>
    intro ts
    dsimp only
    cases h : primary? ts with
    | none => simp [missingExpr, inOrder]
    | some primary =>
      refine ⟨steady_primary h, fun us => ?_, fun us ht => ?_⟩
      · cases hs : suffix? us with
        | none => simp [hs]
        | some s => simpa [hs] using steady_suffix hs
      · obtain ⟨s, hs⟩ := Option.isSome_iff_exists.1 ht
        simpa [hs] using advances_suffix hs
  | collection form => simp [body, collection, element, inOrder]
  | newExpr => simp [body, newExpr, constructorCall, nameRef, inOrder, followedBy]
  | argList => simp [body, argList, argument, inOrder]

theorem advances_body {rule : Rule} (h : sure rule ts = true) :
    (body rule).advances ranking ts := by
  cases rule with
  | metadata => simp_all [body, metadata, inOrder, sure]
  | typeRef => simp_all [body, typeRef, inOrder, sure]
  | typeArgs => simp_all [body, typeArgs, inOrder, sure]
  | argList => simp_all [body, argList, inOrder, sure]
  | param =>
    cases ts with
    | nil => simp [sure] at h
    | cons t ts =>
      simp only [sure, startsWithAny_cons, startsWithAny_empty] at h
      simp [body, param, inOrder, startsWithAny_cons, startsWithAny_empty]
      grind
  | _ => simp [sure] at h

theorem respects : ranking.Respects body where
  sure _ _ h := advances_body h
  steady := steady_body
  descends := descends_body
  rank_lt := rank_lt

theorem steady_file : file.steady ranking := by
  simp [file]

end Grammar

namespace Parse

def readTokens (tokens : List Token) : Builder :=
  Step.run Grammar.body (fuelFor tokens.length) Grammar.file (Builder.ofTokens tokens)

theorem ofTokens_eq (tokens : List Token) :
    ofTokens tokens =
      ⟨(readTokens tokens).attach.built.reverse, (readTokens tokens).errors.reverse⟩ := rfl

theorem runs_file (tokens : List Token) :
    Step.Runs Grammar.body Grammar.file (Builder.ofTokens tokens) (readTokens tokens) := by
  refine Step.runs_run Grammar.respects Grammar.steady_file _ ?_
  simp [Builder.togo, fuelFor, Grammar.ranking]

end Parse

end CrossReference.Source
