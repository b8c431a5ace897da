import CrossReference.Proofs.Reading.Progress
import CrossReference.Proofs.Reading.Quiet
import CrossReference.Proofs.Reading.Skimming

/-!
Two recognizers of types. The rules for types go down into type arguments; the lookahead counts the
angles over a flat run of tokens, and gives up at a parenthesis between them. Of a type that is read
without a report both take the same tokens, but there are types that the lookahead does not see:
those with a parenthesis among their type arguments, and those with parameters after `Function<..>`
or `Function.name`.
-/

namespace CrossReference.Source

open Lookahead

namespace Grammar

open Step

variable {ts us vs : List Token}

theorem clears_qualifiers (h : Clears body qualifiers ts us) :
    ∃ names, ts = names ++ us ∧ Qualifiers names ∧ followedBy .dot .ident us = false := by
  have hturn (vs ms : List Token) (hkept : ∃ names, ts = names ++ vs ∧ Qualifiers names)
      (htest : followedBy .dot .ident vs = true)
      (hbody : Clears body (inOrder [.take, .take]) vs ms) :
      ∃ names, ts = names ++ ms ∧ Qualifiers names := by
    obtain ⟨names, rfl, hnames⟩ := hkept
    obtain ⟨mid, hdot, hname⟩ := hbody.andThen
    obtain rfl := hdot.take
    obtain rfl := hname.take
    match vs, htest with
    | [d], htest => simp [followedBy, kindAt?] at htest
    | d :: n :: vs, htest =>
      have hkinds : d.kind = .dot ∧ n.kind = .ident := by
        simpa [followedBy, kindAt?] using htest
      exact ⟨names ++ [d, n], by simp, hnames.append (.cons hkinds.1 hkinds.2 .nil)⟩
  obtain ⟨⟨names, hts, hnames⟩, hend⟩ := h.repeatWhile hturn ⟨[], rfl, .nil⟩
  exact ⟨names, hts, hnames, hend⟩

theorem clears_functionPart {bare : Bool}
    (h : Clears body (.look fun us =>
      if startsWithWord "Function" us && kindAt? 1 us == some .lParen then
        inOrder [.take, takeGroup]
      else if bare && startsWith .lParen us then takeGroup
      else .done) ts us) :
    us = (afterFunctionPart? bare ts).getD [] := by
  have hchosen := h.look
  rw [afterFunctionPart?]
  split at hchosen
  · next hword =>
    obtain ⟨ms, htake, hgroup⟩ := hchosen.andThen
    obtain rfl := htake.take
    have hparen : startsWith .lParen ts.tail = true :=
      startsWith_tail (by simpa using (Bool.and_eq_true_iff.1 hword).2)
    rw [if_pos hword, ← drop_group hparen]
    exact clears_takeGroup hgroup
  · next hword =>
    rw [if_neg hword]
    split at hchosen
    · next hbare =>
      rw [if_pos hbare, ← drop_group (Bool.and_eq_true_iff.1 hbare).2]
      exact clears_takeGroup hchosen
    · next hbare =>
      rw [if_neg hbare]
      exact hchosen.done

/-- The tokens of a type, cut where the rules for types cut them. `tail` has what stands behind the
type arguments: a function's parameters, which may follow any type that begins with `Function`, and
the question mark. -/
structure TypeParts (ts us : List Token) where
  word : Token
  qualifiers : List Token
  args : List Token
  tail : List Token
  tokens : ts = word :: (qualifiers ++ (args ++ (tail ++ us)))
  word_ident : word.kind = .ident
  qualified : Qualifiers qualifiers
  qualified_all : followedBy .dot .ident (args ++ (tail ++ us)) = false
  applied : args = [] ∧ startsWith .lAngle (tail ++ us) = false ∨
    startsWith .lAngle args = true ∧
      Clears body (.call .typeArgs) (args ++ (tail ++ us)) (tail ++ us)
  ends : us = afterQuestion ((afterFunctionPart? (word.text == "Function") (tail ++ us)).getD [])

/-- What the lookahead sees of a type: no parenthesis among the type arguments, and parameters
behind `Function` only if nothing stands between. -/
structure TypeParts.InSight (p : TypeParts ts us) : Prop where
  args : hasParen p.args = false
  bare : startsWith .lParen p.tail = true → p.qualifiers = [] ∧ p.args = []

theorem exists_args (h : Clears body (given (startsWith .lAngle) (.call .typeArgs)) ts us) :
    ∃ args, ts = args ++ us ∧ (args = [] ∧ startsWith .lAngle us = false ∨
      startsWith .lAngle args = true ∧ Clears body (.call .typeArgs) (args ++ us) us) := by
  rcases h.given with ⟨htest, hargs⟩ | ⟨htest, rfl⟩
  · obtain ⟨l, rest, rfl, hl⟩ := exists_cons_of_startsWith htest
    obtain ⟨ms, htake, hrest⟩ := hargs.call.node.andThen
    obtain rfl : rest = ms := htake.take.symm
    obtain ⟨inner, rfl⟩ := hrest.suffix
    exact ⟨l :: inner, rfl, .inr ⟨by simp [hl], hargs⟩⟩
  · exact ⟨[], rfl, .inl ⟨rfl, htest⟩⟩

theorem exists_typeParts (h : Clears body (.call .typeRef) ts us)
    (hts : startsWith .ident ts = true) :
    ∃ p : TypeParts ts us, Skimmed p.tail us := by
  obtain ⟨word, rest, rfl, hword⟩ := exists_cons_of_startsWith hts
  obtain ⟨ms, htake, hrest⟩ := h.call.node.look.andThen
  obtain rfl : rest = ms := htake.take.symm
  obtain ⟨applied, hquals, hrest⟩ := hrest.andThen
  obtain ⟨behind, hargs, hrest⟩ := hrest.andThen
  obtain ⟨marked, hfunction, hmark⟩ := hrest.andThen
  obtain ⟨qualifiers, hqualifiers, hnames, hall⟩ := clears_qualifiers hquals
  obtain ⟨args, rfl, happlied⟩ := exists_args hargs
  have hbare : startsWithWord "Function" (word :: rest) = (word.text == "Function") := by
    simp [startsWithWord, word?, hword]
  rw [hbare] at hfunction
  have hmarked := clears_functionPart hfunction
  have hus : us = afterQuestion marked := clears_eat hmark
  obtain ⟨part, hpart, hskims⟩ := exists_functionPart (word.text == "Function") behind
  obtain ⟨mark, hsplit, hskims'⟩ := exists_question marked
  rw [← hmarked] at hpart hskims
  rw [← hus] at hsplit hskims'
  have hbehind : behind = (part ++ mark) ++ us := by rw [hpart, hsplit, List.append_assoc]
  subst hbehind
  refine ⟨⟨word, qualifiers, args, part ++ mark, ?_, hword, hnames, hall, happlied, ?_⟩,
    .append (hsplit ▸ hskims) hskims'⟩
  · rw [← hqualifiers]
  · rw [← hmarked, hus]

structure Counts (size : Nat) : Prop where
  types : ∀ {taken us : List Token}, (taken ++ us).length ≤ size →
    startsWith .ident (taken ++ us) = true → Clears body (.call .typeRef) (taken ++ us) us →
    Skimmed taken us
  args : ∀ {args us : List Token}, (args ++ us).length ≤ size →
    startsWith .lAngle (args ++ us) = true → Clears body (.call .typeArgs) (args ++ us) us →
    ClosesAngles args us

theorem skimmed_type {size : Nat} (hsize : Counts size) {taken : List Token}
    (hlength : (taken ++ us).length ≤ size + 1) (hts : startsWith .ident (taken ++ us) = true)
    (h : Clears body (.call .typeRef) (taken ++ us) us) : Skimmed taken us := by
  obtain ⟨p, htail⟩ := exists_typeParts h hts
  have htaken : taken = p.word :: (p.qualifiers ++ (p.args ++ p.tail)) :=
    List.append_cancel_right (p.tokens.trans (by simp))
  have hargs : Skimmed p.args (p.tail ++ us) := by
    rcases p.applied with ⟨hnil, -⟩ | ⟨hangle, hargs⟩
    · rw [hnil]
      exact .nil
    · have hopen := startsWith_append hangle (p.tail ++ us)
      have hshorter : (p.args ++ (p.tail ++ us)).length ≤ size := by
        rw [htaken] at hlength
        simp only [List.cons_append, List.length_cons, List.length_append] at hlength ⊢
        omega
      exact (hsize.args hshorter hopen hargs).skimmed
  rw [htaken]
  exact .cons (by simp [p.word_ident]) (p.qualified.skimmed.append (hargs.append htail))

theorem closesAngles_args {size : Nat} (hsize : Counts size) {args : List Token}
    (hlength : (args ++ us).length ≤ size + 1) (hts : startsWith .lAngle (args ++ us) = true)
    (h : Clears body (.call .typeArgs) (args ++ us) us) : ClosesAngles args us := by
  obtain ⟨l, rest, hl, hopen⟩ := exists_cons_of_startsWith hts
  rw [hl] at h
  obtain ⟨ms, htake, hrest⟩ := h.call.node.andThen
  obtain rfl : rest = ms := htake.take.symm
  obtain ⟨closing, hlist, hexpect⟩ := hrest.andThen
  let kept (vs : List Token) : Prop := ∃ inner, rest = inner ++ vs ∧ Skimmed inner vs
  have hturn (vs ms : List Token) (hkept : kept vs) (htest : startsWith .ident vs = true)
      (htype : Clears body (.call .typeRef) vs ms) :
      if startsWith .comma ms then kept ms.tail else kept ms := by
    obtain ⟨inner, hvs, hinner⟩ := hkept
    obtain ⟨taken, rfl⟩ := htype.suffix
    have hshorter : (taken ++ ms).length ≤ size := by
      rw [hl, hvs, List.length_cons, List.length_append] at hlength
      omega
    have hmore : Skimmed (inner ++ taken) ms := hinner.append (hsize.types hshorter htest htype)
    split
    · next hcomma =>
      obtain ⟨c, ms, rfl, hc⟩ := exists_cons_of_startsWith hcomma
      exact ⟨inner ++ taken ++ [c], by simp [hvs], hmore.append (.cons (by simp [hc]) .nil)⟩
    · exact ⟨inner ++ taken, by simp [hvs], hmore⟩
  obtain ⟨inner, hinner, hskims⟩ := hlist.commaList hturn (fun _ hkept _ => hkept) ⟨[], rfl, .nil⟩
  obtain ⟨hclose, rfl⟩ := clears_expect hexpect
  obtain ⟨r, us, rfl, hr⟩ := exists_cons_of_startsWith hclose
  have hargs : args = l :: (inner ++ [r]) :=
    List.append_cancel_right (hl.trans (by simp [hinner]))
  rw [hargs]
  exact hskims.closesAngles hopen hr

theorem counts (size : Nat) : Counts size := by
  induction size with
  | zero =>
    refine ⟨fun hlength hts => ?_, fun hlength hts => ?_⟩
    all_goals
      rw [Nat.le_zero, List.length_eq_zero_iff] at hlength
      simp [hlength] at hts
  | succ size ih => exact ⟨skimmed_type ih, closesAngles_args ih⟩

namespace TypeParts

variable (p : TypeParts ts us)

def bare : Bool :=
  p.word.text == "Function" && startsWith .lParen (p.qualifiers ++ (p.args ++ (p.tail ++ us)))

theorem afterType?_eq : afterType? ts =
    if hasParen p.args then none
    else (afterFunctionPart? p.bare (p.tail ++ us)).map afterQuestion := by
  refine (congrArg afterType? p.tokens).trans ?_
  rw [afterType?_cons p.word_ident, p.qualified.after p.qualified_all]
  rcases p.applied with ⟨hnil, hplain⟩ | ⟨hangle, hargs⟩
  · simp [hnil, hplain, hasParen, bare]
  · have hopen := startsWith_append hangle (p.tail ++ us)
    rw [if_pos hopen, (counts _).args (Nat.le_refl _) hopen hargs 0]
    cases hasParen p.args
    · rfl
    · rfl

theorem afterFunctionPart?_bare
    (hplain : startsWith .lParen (p.tail ++ us) = true → p.qualifiers = [] ∧ p.args = []) :
    afterFunctionPart? p.bare (p.tail ++ us) =
      afterFunctionPart? (p.word.text == "Function") (p.tail ++ us) := by
  refine afterFunctionPart?_congr fun hparen => ?_
  simp [bare, hplain hparen, hparen]

theorem bare_of_not_plain (hplain : ¬ (p.qualifiers = [] ∧ p.args = [])) : p.bare = false := by
  have hparen : startsWith .lParen (p.qualifiers ++ (p.args ++ (p.tail ++ us))) = false := by
    rcases p.qualified.nil_or_dot with hnil | hdot
    · have hangle := (p.applied.resolve_left fun h => hplain ⟨hnil, h.1⟩).1
      rw [hnil, List.nil_append]
      exact startsWith_ne (startsWith_append hangle _) (by decide)
    · exact startsWith_ne (startsWith_append hdot _) (by decide)
  simp [bare, hparen]

theorem typedName?_of_not_plain (hplain : ¬ (p.qualifiers = [] ∧ p.args = []))
    (hparen : startsWith .lParen (p.tail ++ us) = true) : typedName? ts = none := by
  have hbehind : afterFunctionPart? false (p.tail ++ us) = some (p.tail ++ us) :=
    afterFunctionPart?_paren hparen
  have hquestion : startsWith .question (p.tail ++ us) = false := startsWith_ne hparen (by decide)
  have hname : startsWith .ident (p.tail ++ us) = false := startsWith_ne hparen (by decide)
  rw [typedName?, p.afterType?_eq, p.bare_of_not_plain hplain, hbehind, Option.map_some]
  cases hasParen p.args <;> simp [afterQuestion, hquestion, hname]

theorem eq_of_typedName? (p : TypeParts ts us) {rest : List Token} (h : typedName? ts = some rest) :
    rest = us := by
  have hplain (hparen : startsWith .lParen (p.tail ++ us) = true) :
      p.qualifiers = [] ∧ p.args = [] := by
    by_contra hplain
    simp [p.typedName?_of_not_plain hplain hparen] at h
  obtain ⟨htype, -⟩ := typedName?_eq_some_iff.1 h
  rw [p.afterType?_eq, p.afterFunctionPart?_bare hplain] at htype
  cases hargs : hasParen p.args with
  | true => simp [hargs] at htype
  | false =>
    rw [hargs, if_neg Bool.false_ne_true] at htype
    obtain ⟨behind, hbehind, rfl⟩ := Option.map_eq_some_iff.1 htype
    have hends := p.ends
    rw [hbehind, Option.getD_some] at hends
    exact hends.symm

variable {p}

theorem InSight.typedName? (h : p.InSight) (hname : startsWith .ident us = true) :
    typedName? ts = some us := by
  refine typedName?_eq_some_iff.2 ⟨?_, hname⟩
  -- The name is no parenthesis, so a parenthesis behind the type arguments is part of the type.
  have hplain (hparen : startsWith .lParen (p.tail ++ us) = true) :
      p.qualifiers = [] ∧ p.args = [] := by
    refine h.bare ?_
    cases htail : p.tail with
    | nil =>
      rw [htail, List.nil_append, startsWith_ne hname (by decide)] at hparen
      exact absurd hparen Bool.false_ne_true
    | cons t rest => simpa [htail] using hparen
  rw [p.afterType?_eq, h.args, if_neg Bool.false_ne_true, p.afterFunctionPart?_bare hplain]
  have hends := p.ends
  cases hbehind : afterFunctionPart? (p.word.text == "Function") (p.tail ++ us) with
  | none =>
    rw [hbehind] at hends
    simp [hends, afterQuestion] at hname
  | some behind =>
    rw [hbehind, Option.getD_some] at hends
    rw [Option.map_some, ← hends]

theorem typedName?_of_not_inSight (h : ¬ p.InSight) : typedName? ts = none := by
  cases hargs : hasParen p.args with
  | true => simp [Lookahead.typedName?, p.afterType?_eq, hargs]
  | false =>
    have hbare : ¬ (startsWith .lParen p.tail = true → p.qualifiers = [] ∧ p.args = []) :=
      fun hbare => h ⟨hargs, hbare⟩
    obtain ⟨hparen, hplain⟩ := Classical.not_imp.1 hbare
    exact p.typedName?_of_not_plain hplain (startsWith_append hparen us)

end TypeParts

end Grammar

namespace Parse

open Grammar

/-- What a rule makes of a file half read; no larger bound makes more of it
(`exists_runs_of_steady`). -/
def readRule (rule : Rule) (b : Builder) : Builder :=
  Step.run body (fuelFor b.togo) (.call rule) b

theorem clears_readRule {rule : Rule} {b : Builder} (h : (readRule rule b).errors = b.errors) :
    Step.Clears body (.call rule) b.ahead (readRule rule b).ahead := by
  have hsteady : (Step.call rule).steady ranking := trivial
  exact (Step.runs_run respects hsteady b (Nat.le_refl _)).clears h

/-- When a type followed by a name is seen ahead and the rule for types has nothing to report, it
takes just the tokens before that name; and so for type arguments. -/
theorem typedName?_sound (b : Builder) :
    (∀ named, typedName? b.ahead = some named →
      (readRule .typeRef b).errors = b.errors →
      ∃ type, b.ahead = type ++ named ∧ (readRule .typeRef b).ahead = named ∧
        startsWith .ident named = true) ∧
    ∀ rest, afterTypeArgs? b.ahead = some rest →
      (readRule .typeArgs b).errors = b.errors →
      ∃ args, b.ahead = args ++ rest ∧ (readRule .typeArgs b).ahead = rest := by
  constructor
  · intro named hnamed herrors
    obtain ⟨htype, hname⟩ := typedName?_eq_some_iff.1 hnamed
    have hident : startsWith .ident b.ahead = true := startsWith_of_afterType? htype
    have hclears := clears_readRule herrors
    obtain ⟨p, -⟩ := exists_typeParts hclears hident
    obtain rfl := p.eq_of_typedName? hnamed
    obtain ⟨type, htokens⟩ := hclears.suffix
    exact ⟨type, htokens.symm, rfl, hname⟩
  · intro rest hrest herrors
    obtain ⟨hangle, hcount⟩ := Option.ite_none_right_eq_some.1 hrest
    obtain ⟨args, htokens⟩ := (clears_readRule herrors).suffix
    have hcloses : ClosesAngles args (readRule .typeArgs b).ahead :=
      (counts _).args (Nat.le_refl _) (htokens ▸ hangle) (htokens ▸ clears_readRule herrors)
    rw [← htokens, hcloses 0] at hcount
    cases hparen : hasParen args with
    | true => simp [hparen] at hcount
    | false =>
      obtain rfl : (readRule .typeArgs b).ahead = rest := by simpa [hparen] using hcount
      exact ⟨args, htokens.symm, rfl⟩

theorem typedName?_sound_function_type :
    (∃ type, significant (Token.scan "a.Map<String, B<int>?> Function(int n)? f;") =
        type ++ significant (Token.scan "f;") ∧
      (readRule .typeRef (.ofTokens
        (Token.scan "a.Map<String, B<int>?> Function(int n)? f;"))).ahead =
          significant (Token.scan "f;") ∧
      startsWith .ident (significant (Token.scan "f;")) = true) ∧
    ∃ args, significant (Token.scan "<int, B<a.C>>(x)") = args ++ significant (Token.scan "(x)") ∧
      (readRule .typeArgs (.ofTokens (Token.scan "<int, B<a.C>>(x)"))).ahead =
        significant (Token.scan "(x)") :=
  ⟨(typedName?_sound (.ofTokens (Token.scan "a.Map<String, B<int>?> Function(int n)? f;"))).1
      (significant (Token.scan "f;")) (by decide +kernel) (by decide +kernel),
    (typedName?_sound (.ofTokens (Token.scan "<int, B<a.C>>(x)"))).2
      (significant (Token.scan "(x)")) (by decide +kernel) (by decide +kernel)⟩

/-- Of a type before a name that the rule for types reads without a report, the lookahead gives the
name if the type is in sight, and takes it for no type otherwise. -/
theorem typedName?_of_type_read (b : Builder) (hident : startsWith .ident b.ahead = true)
    (herrors : (readRule .typeRef b).errors = b.errors)
    (hname : startsWith .ident (readRule .typeRef b).ahead = true) :
    Nonempty (TypeParts b.ahead (readRule .typeRef b).ahead) ∧
    ∀ p : TypeParts b.ahead (readRule .typeRef b).ahead,
      (p.InSight → typedName? b.ahead = some (readRule .typeRef b).ahead) ∧
      (¬ p.InSight → typedName? b.ahead = none) := by
  obtain ⟨p, -⟩ := exists_typeParts (clears_readRule herrors) hident
  exact ⟨⟨p⟩, fun p => ⟨fun hsight => hsight.typedName? hname, p.typedName?_of_not_inSight⟩⟩

theorem typedName?_of_type_read_hidden :
    startsWith .ident (significant (Token.scan "List<void Function(int)> x;")) = true ∧
    (readRule .typeRef (.ofTokens (Token.scan "List<void Function(int)> x;"))).errors = [] ∧
    startsWith .ident
      (readRule .typeRef (.ofTokens (Token.scan "List<void Function(int)> x;"))).ahead = true ∧
    ∃ p : TypeParts (significant (Token.scan "List<void Function(int)> x;"))
        (readRule .typeRef (.ofTokens (Token.scan "List<void Function(int)> x;"))).ahead,
      ¬ p.InSight := by
  have hident :
      startsWith .ident (significant (Token.scan "List<void Function(int)> x;")) = true := by
    decide +kernel
  have herrors :
      (readRule .typeRef (.ofTokens (Token.scan "List<void Function(int)> x;"))).errors = [] := by
    decide +kernel
  have hname : startsWith .ident
      (readRule .typeRef (.ofTokens (Token.scan "List<void Function(int)> x;"))).ahead = true := by
    decide +kernel
  have hmissed : typedName? (significant (Token.scan "List<void Function(int)> x;")) = none := by
    decide +kernel
  obtain ⟨⟨p⟩, hseen⟩ := typedName?_of_type_read
    (.ofTokens (Token.scan "List<void Function(int)> x;")) hident herrors hname
  exact ⟨hident, herrors, hname, p, fun hsight => nomatch hmissed.symm.trans ((hseen p).1 hsight)⟩

theorem typedName?_misses_types :
    ((readRule .typeRef (.ofTokens (Token.scan "List<void Function(int)> x;"))).errors = [] ∧
      (readRule .typeRef (.ofTokens (Token.scan "List<void Function(int)> x;"))).ahead =
        significant (Token.scan "x;") ∧
      typedName? (significant (Token.scan "List<void Function(int)> x;")) = none ∧
      (parse "List<void Function(int)> x;").errors ≠ []) ∧
    (readRule .typeRef (.ofTokens (Token.scan "Function<int>(int) x;"))).errors = [] ∧
      (readRule .typeRef (.ofTokens (Token.scan "Function<int>(int) x;"))).ahead =
        significant (Token.scan "x;") ∧
      typedName? (significant (Token.scan "Function<int>(int) x;")) = none ∧
      (parse "Function<int>(int) x;").errors ≠ [] := by
  decide +kernel

end Parse

end CrossReference.Source
