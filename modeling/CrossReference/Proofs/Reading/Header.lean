import CrossReference.Proofs.Reading.Frame

namespace CrossReference.Source

open Lookahead Step Grammar

def TokenKind.opensHeader : TokenKind → Bool
  | .importKw | .exportKw | .libraryKw => true
  | _ => false

theorem isTrivia_of_opensHeader {k : Token} (h : k.kind.opensHeader) : k.isTrivia = false := by
  revert h
  cases hkind : k.kind <;> simp [TokenKind.opensHeader, Token.isTrivia, hkind, TokenKind.isTrivia]

def stops (k : Token) : List TokenKind :=
  if k.kind = .importKw then [.semicolon, .importKw] else [.semicolon]

def Trimmed (ts : List Token) : Prop := ∀ t, ts.getLast? = some t → t.isTrivia = false

def EndsBefore (k : Token) (rest : List Token) : Prop :=
  significant rest = [] ∨ k.kind = .importKw ∧ kind? (significant rest) = some .importKw

/-- `seg` is what a header opened by `k` takes of `seg ++ rest`; the number is 1 when the semicolon
is missing. -/
inductive HeaderBody (k : Token) : List Token → List Token → Nat → Prop
  | closed (body : List Token) (semi : Token) {rest : List Token} :
      (∀ t ∈ body, (stops k).contains t.kind = false) → semi.kind = .semicolon →
      HeaderBody k (body ++ [semi]) rest 0
  | unclosed {body rest : List Token} :
      (∀ t ∈ body, (stops k).contains t.kind = false) → Trimmed body → EndsBefore k rest →
      HeaderBody k body rest 1

def quoteFirst : List Token → List Tree
  | [] => []
  | t :: ts =>
    if t.isTrivia then .leaf t :: quoteFirst ts
    else if t.kind = .string then .node .stringLiteral [.leaf t] :: ts.map .leaf
    else (t :: ts).map .leaf

def headerTree (k : Token) (seg : List Token) : Tree :=
  if k.kind = .importKw then .node .importDirective (.leaf k :: quoteFirst seg)
  else .node .directive ((k :: seg).map .leaf)

def missing (k : Token) (seg : List Token) : Nat :=
  if k.kind = .importKw ∧ startsWith .string (significant seg) = false then 1 else 0

theorem Trimmed.tail {t : Token} {ts : List Token} (h : Trimmed (t :: ts)) : Trimmed ts := by
  intro u hu
  refine h u ?_
  rw [List.getLast?_cons, hu]
  rfl

theorem Trimmed.of_append {ts us : List Token} (h : Trimmed (ts ++ us)) : Trimmed us := by
  induction ts with
  | nil => exact h
  | cons t ts ih => exact ih h.tail

theorem Trimmed.eq_nil {ts : List Token} (h : Trimmed ts) (ht : ∀ t ∈ ts, t.isTrivia) :
    ts = [] := by
  cases hl : ts.getLast? with
  | none => exact List.getLast?_eq_none_iff.1 hl
  | some t =>
    have hsig := h t hl
    rw [ht t (List.mem_of_getLast? hl)] at hsig
    cases hsig

theorem exists_trimmed (ts : List Token) :
    ∃ body gap, ts = body ++ gap ∧ Trimmed body ∧ ∀ g ∈ gap, g.isTrivia := by
  induction ts with
  | nil => exact ⟨[], [], rfl, by simp [Trimmed], by simp⟩
  | cons t ts ih =>
    obtain ⟨body, gap, rfl, hbody, hgap⟩ := ih
    cases body with
    | cons u body =>
      refine ⟨t :: u :: body, gap, rfl, ?_, hgap⟩
      intro v hv
      exact hbody v (by simpa [List.getLast?_cons] using hv)
    | nil =>
      cases ht : t.isTrivia with
      | true => exact ⟨[], t :: gap, rfl, hbody, List.forall_mem_cons.2 ⟨ht, hgap⟩⟩
      | false => exact ⟨[t], gap, rfl, by simpa [Trimmed] using ht, hgap⟩

theorem semicolon_mem_stops (k : Token) : (stops k).contains .semicolon = true := by
  by_cases h : k.kind = .importKw <;> simp [stops, h]

theorem before_cons {kinds : List TokenKind} {t : Token} {ts : List Token} :
    before kinds (t :: ts) = !kinds.contains t.kind := by
  simp [before, startsWithAny]

theorem EndsBefore.stopped {k : Token} {rest : List Token} (h : EndsBefore k rest) :
    before (stops k) (significant rest) = false := by
  rcases h with h | ⟨hk, h⟩
  · simp [h, before]
  · obtain ⟨t, ts, hts, ht⟩ : ∃ t ts, significant rest = t :: ts ∧ t.kind = .importKw := by
      cases hs : significant rest <;> simp [hs, kind?] at h ⊢
      exact h
    rw [hts, before_cons, ht]
    simp [stops, hk]

theorem EndsBefore.not_startsWith {k : Token} {rest : List Token} {kind : TokenKind}
    (h : EndsBefore k rest) (hkind : kind ≠ .importKw) :
    startsWith kind (significant rest) = false := by
  rcases h with h | ⟨_, h⟩
  · simp [h, startsWith, kind?]
  · simp [startsWith, h, hkind.symm]

namespace HeaderBody

variable {k : Token} {seg rest : List Token} {n : Nat}

theorem cons {t : Token} (ht : (stops k).contains t.kind = false) (hsig : t.isTrivia = false)
    (h : HeaderBody k seg rest n) : HeaderBody k (t :: seg) rest n := by
  cases h with
  | closed body semi hbody hsemi =>
    exact .closed (t :: body) semi (List.forall_mem_cons.2 ⟨ht, hbody⟩) hsemi
  | unclosed hbody htrim hrest =>
    refine .unclosed (List.forall_mem_cons.2 ⟨ht, hbody⟩) ?_ hrest
    intro u hu
    cases hl : seg.getLast? with
    | none =>
      obtain rfl : t = u := by simpa [List.getLast?_cons, hl] using hu
      exact hsig
    | some v => exact htrim u (by simpa [List.getLast?_cons, hl] using hu)

theorem of_append (pre : List Token) (hpre : ∀ t ∈ pre, t.kind ≠ .semicolon)
    (h : HeaderBody k (pre ++ seg) rest n) : HeaderBody k seg rest n := by
  generalize hwhole : pre ++ seg = whole at h
  cases h with
  | closed body semi hbody hsemi =>
    rcases List.append_eq_append_iff.1 hwhole with ⟨mid, rfl, rfl⟩ | ⟨mid, rfl, hm⟩
    · exact .closed mid semi (fun t ht => hbody t (List.mem_append_right _ ht)) hsemi
    · cases mid with
      | nil =>
        obtain rfl : [semi] = seg := by simpa using hm
        exact .closed [] semi (by simp) hsemi
      | cons u mid =>
        obtain ⟨rfl, _⟩ := List.cons.inj hm
        exact absurd hsemi (hpre _ (by simp))
  | unclosed hbody htrim hrest =>
    subst hwhole
    exact .unclosed (fun t ht => hbody t (List.mem_append_right _ ht)) htrim.of_append hrest

end HeaderBody

structure Builder.Took (b : Builder) (ts rest : List Token) (n : Nat) (z : Builder) : Prop where
  reads : z.Reads rest
  built : z.built = (ts.map .leaf).reverse ++ b.built
  errors : z.errors.length = n + b.errors.length

namespace Builder

variable {b m z : Builder} {gap ts us rest rest' : List Token} {t : Token} {n n' : Nat}

theorem Took.trans (h : b.Took ts rest n m) (h' : m.Took us rest' n' z) :
    b.Took (ts ++ us) rest' (n + n') z := by
  refine ⟨h'.reads, ?_, ?_⟩
  · rw [h'.built, h.built]
    simp
  · rw [h'.errors, h.errors]
    omega

theorem took_take (hgap : ∀ g ∈ gap, g.isTrivia) (ht : t.isTrivia = false)
    (h : b.Reads (gap ++ t :: rest)) : b.Took (gap ++ [t]) rest 0 b.take := by
  refine ⟨h.take hgap ht, ?_, ?_⟩
  · simp [h.built_take hgap ht]
  · simp [b.errors_take]

theorem took_next (ht : t.isTrivia = false) (h : b.Reads (t :: rest)) :
    b.Took [t] rest 0 b.take := by
  have hgap : ∀ g ∈ ([] : List Token), g.isTrivia := by simp
  exact took_take hgap ht h

theorem took_report (message : String) (h : b.Reads rest) :
    b.Took [] rest 1 (b.report message) :=
  ⟨⟨h.pending, h.ahead, h.gaps⟩, rfl, by simp [report, Nat.add_comm]⟩

end Builder

theorem runs_takeWhile {kinds : List TokenKind} {b : Builder} {body rest : List Token}
    (hbody : ∀ t ∈ body, kinds.contains t.kind = false) (htrim : Trimmed body)
    (hrest : before kinds (significant rest) = false) (hb : b.Reads (body ++ rest)) :
    ∃ z, Runs Grammar.body (.repeatWhile (before kinds) .take) b z ∧ b.Took body rest 0 z := by
  induction h : body.length using Nat.strongRecOn generalizing b body with
  | _ n ih =>
    rcases trivia_or_gap body with htriv | ⟨gap, t, body', rfl, hgap, ht⟩
    · obtain rfl := htrim.eq_nil htriv
      exact ⟨b, .repeatStop (by rw [hb.ahead]; exact hrest), hb, rfl, by simp⟩
    · rw [List.append_assoc, List.cons_append] at hb
      have htook := Builder.took_take hgap ht hb
      have hlen : body'.length < n := by simp [← h]; omega
      have htrim' : Trimmed body' := htrim.of_append.tail
      obtain ⟨z, hz, htook'⟩ :=
        ih _ hlen (fun u hu => hbody u (by simp [hu])) htrim' htook.reads rfl
      refine ⟨z, .repeatTurn ?_ (.take b) hz, by simpa using htook.trans htook'⟩
      rw [hb.ahead, significant_gap hgap ht, before_cons, hbody t (by simp)]
      rfl

theorem runs_expect {b : Builder} {gap rest : List Token} {semi : Token}
    (hgap : ∀ g ∈ gap, g.isTrivia) (hsemi : semi.kind = .semicolon)
    (hb : b.Reads (gap ++ semi :: rest)) :
    Runs Grammar.body (expect .semicolon) b b.take := by
  have ht : semi.isTrivia = false := by simp [Token.isTrivia, hsemi, TokenKind.isTrivia]
  refine .look ?_
  rw [hb.ahead, significant_gap hgap ht]
  simpa [startsWith, kind?, hsemi] using Runs.take b

theorem runs_headerBody {k : Token} {seg rest : List Token} {n : Nat} {b : Builder}
    (h : HeaderBody k seg rest n) (hb : b.Reads (seg ++ rest)) :
    ∃ z, Runs Grammar.body
      (.andThen (.repeatWhile (before (stops k)) .take) (expect .semicolon)) b z ∧
      b.Took seg rest n z := by
  cases h with
  | closed body semi hbody hsemi =>
    obtain ⟨body, gap, rfl, htrim, hgap⟩ := exists_trimmed body
    have ht : semi.isTrivia = false := by simp [Token.isTrivia, hsemi, TokenKind.isTrivia]
    have hstop : before (stops k) (significant (gap ++ semi :: rest)) = false := by
      rw [significant_gap hgap ht, before_cons, hsemi, semicolon_mem_stops]
      rfl
    obtain ⟨z, hz, htook⟩ := runs_takeWhile (fun t h => hbody t (List.mem_append_left _ h)) htrim
      hstop (by simpa using hb)
    exact ⟨z.take, .andThen hz (runs_expect hgap hsemi htook.reads),
      by simpa using htook.trans (Builder.took_take hgap ht htook.reads)⟩
  | unclosed hbody htrim hrest =>
    obtain ⟨z, hz, htook⟩ := runs_takeWhile hbody htrim hrest.stopped hb
    have hreport : Runs Grammar.body (expect .semicolon) z
        (z.report ("expected " ++ TokenKind.semicolon.label)) := by
      refine .look ?_
      rw [htook.reads.ahead, hrest.not_startsWith (by decide)]
      exact .report _ z
    exact ⟨_, .andThen hz hreport, by simpa using htook.trans (Builder.took_report _ htook.reads)⟩

structure Builder.Adds (b : Builder) (gap : List Token) (tree : Tree) (rest : List Token) (n : Nat)
    (z : Builder) : Prop where
  reads : z.Reads rest
  built : z.built = tree :: ((gap.map .leaf).reverse ++ b.built)
  errors : z.errors.length = n + b.errors.length

namespace Builder

variable {b inner : Builder} {gap ts rest : List Token} {t : Token} {n : Nat}

theorem Reads.opened (hgap : ∀ g ∈ gap, g.isTrivia) (ht : t.isTrivia = false)
    (h : b.Reads (gap ++ t :: ts)) : b.opened.Reads (t :: ts) := by
  obtain ⟨hp, ha, hg⟩ := h.attach hgap ht
  exact ⟨hp, ha, hg⟩

theorem adds_closeNode (hgap : ∀ g ∈ gap, g.isTrivia) (ht : t.isTrivia = false)
    (h : b.Reads (gap ++ t :: ts)) (kind : NodeKind) (hr : inner.Reads rest)
    (he : inner.errors.length = n + b.errors.length) :
    b.Adds gap (.node kind inner.built.reverse) rest n (b.closeNode kind inner) := by
  have hp : b.pending = gap := h.pending.trans (leadingTrivia_gap hgap ht)
  refine ⟨⟨hr.pending, hr.ahead, hr.gaps⟩, ?_, he⟩
  simp [closeNode, Builder.attach, hp]

end Builder

theorem quoteFirst_string {gap ts : List Token} {t : Token} (hgap : ∀ g ∈ gap, g.isTrivia)
    (ht : t.kind = .string) :
    quoteFirst (gap ++ t :: ts) =
      gap.map .leaf ++ .node .stringLiteral [.leaf t] :: ts.map .leaf := by
  induction gap with
  | nil => simp [quoteFirst, ht, Token.isTrivia, TokenKind.isTrivia]
  | cons g gap ih =>
    obtain ⟨hg, hgap⟩ := List.forall_mem_cons.1 hgap
    simp [quoteFirst, hg, ih hgap]

theorem quoteFirst_leaves {ts : List Token} (h : startsWith .string (significant ts) = false) :
    quoteFirst ts = ts.map .leaf := by
  induction ts with
  | nil => rfl
  | cons t ts ih =>
    cases ht : t.isTrivia with
    | true =>
      have hts : significant (t :: ts) = significant ts := by simp [significant, ht]
      rw [hts] at h
      simp [quoteFirst, ht, ih h]
    | false =>
      have hkind : t.kind ≠ .string := by
        intro hk
        simp [significant, ht, startsWith, kind?, hk] at h
      simp [quoteFirst, ht, hkind]

theorem startsWith_gap {kind : TokenKind} {gap ts : List Token} {t : Token}
    (hgap : ∀ g ∈ gap, g.isTrivia) (ht : t.isTrivia = false) :
    startsWith kind (significant (gap ++ t :: ts)) = (t.kind == kind) := by
  rw [significant_gap hgap ht]
  simp [startsWith, kind?]

theorem HeaderBody.startsWith_string {k : Token} {seg rest : List Token} {n : Nat}
    (h : HeaderBody k seg rest n) :
    startsWith .string (significant (seg ++ rest)) = startsWith .string (significant seg) := by
  rcases trivia_or_gap seg with htriv | ⟨gap, t, seg', rfl, hgap, ht⟩
  · cases h with
    | closed body semi hbody hsemi =>
      have := htriv semi (by simp)
      simp [Token.isTrivia, hsemi, TokenKind.isTrivia] at this
    | unclosed hbody htrim hrest =>
      obtain rfl := htrim.eq_nil htriv
      exact hrest.not_startsWith (by decide)
  · rw [List.append_assoc, List.cons_append, startsWith_gap hgap ht, startsWith_gap hgap ht]

section Header

variable {k : Token} {gap seg rest : List Token} {n : Nat} {b : Builder}

theorem runs_directive (hk : k.kind = .exportKw ∨ k.kind = .libraryKw)
    (hgap : ∀ g ∈ gap, g.isTrivia) (h : HeaderBody k seg rest n)
    (hb : b.Reads (gap ++ k :: (seg ++ rest))) :
    ∃ z, Runs Grammar.body Grammar.directive b z ∧ b.Adds gap (headerTree k seg) rest n z := by
  have hsig : k.isTrivia = false := by
    rcases hk with hk | hk <;> simp [Token.isTrivia, hk, TokenKind.isTrivia]
  have himport : k.kind ≠ .importKw := by
    rcases hk with hk | hk <;> simp [hk]
  have hstops : stops k = [.semicolon] := if_neg himport
  have hk' : (stops k).contains k.kind = false := by
    rw [hstops]
    rcases hk with hk | hk <;> simp [hk]
  obtain ⟨z, hz, htook⟩ := runs_headerBody (h.cons hk' hsig) (hb.opened hgap hsig)
  rw [hstops] at hz
  have htree : headerTree k seg = .node .directive z.built.reverse := by
    rw [headerTree, if_neg himport, htook.built]
    simp [Builder.opened]
  exact ⟨_, .node hz,
    htree ▸ Builder.adds_closeNode hgap hsig hb .directive htook.reads htook.errors⟩

theorem runs_library (h : HeaderBody k seg rest n) (hb : b.Reads (seg ++ rest))
    (himport : k.kind = .importKw) :
    ∃ z m, Runs Grammar.body (.look fun ts =>
        if startsWith .string ts then .node .stringLiteral .take
        else .report "expected an import uri") b m ∧
      Runs Grammar.body (.andThen (.repeatWhile (before (stops k)) .take) (expect .semicolon)) m z ∧
      z.Reads rest ∧ z.built = (quoteFirst seg).reverse ++ b.built ∧
      z.errors.length = missing k seg + n + b.errors.length := by
  cases hstring : startsWith .string (significant seg) with
  | true =>
    rcases trivia_or_gap seg with htriv | ⟨gap, str, seg, rfl, hgap, hsig⟩
    · simp [significant_eq_nil htriv, startsWith, kind?] at hstring
    · have hkind : str.kind = .string := by simpa [startsWith_gap hgap hsig] using hstring
      have hseg : HeaderBody k seg rest n := by
        refine HeaderBody.of_append (gap ++ [str]) ?_ (by simpa using h)
        intro t ht hsemi
        rcases List.mem_append.1 ht with ht | ht
        · have := hgap t ht
          simp [Token.isTrivia, hsemi, TokenKind.isTrivia] at this
        · rw [List.mem_singleton.1 ht, hkind] at hsemi
          cases hsemi
      rw [List.append_assoc, List.cons_append] at hb
      have hread := hb.opened hgap hsig
      have htake := Builder.took_next hsig hread
      have hadds := Builder.adds_closeNode hgap hsig hb .stringLiteral htake.reads htake.errors
      obtain ⟨z, hz, htook⟩ := runs_headerBody hseg hadds.reads
      refine ⟨z, _, .look ?_, hz, htook.reads, ?_, ?_⟩
      · rw [hb.ahead, startsWith_gap hgap hsig]
        simpa [hkind] using Runs.node (.take b.opened)
      · rw [htook.built, hadds.built, quoteFirst_string hgap hkind, htake.built]
        simp [Builder.opened]
      · rw [htook.errors, hadds.errors]
        simp [missing, hstring]
  | false =>
    have hreport := Builder.took_report "expected an import uri" hb
    obtain ⟨z, hz, htook⟩ := runs_headerBody h hreport.reads
    have htook := hreport.trans htook
    refine ⟨z, _, .look ?_, hz, htook.reads, ?_, ?_⟩
    · rw [hb.ahead, h.startsWith_string, hstring]
      exact .report _ b
    · rw [htook.built, quoteFirst_leaves hstring]
      simp
    · rw [htook.errors, missing, if_pos ⟨himport, hstring⟩]

theorem runs_import (hk : k.kind = .importKw) (hgap : ∀ g ∈ gap, g.isTrivia)
    (h : HeaderBody k seg rest n) (hb : b.Reads (gap ++ k :: (seg ++ rest))) :
    ∃ z, Runs Grammar.body Grammar.importDirective b z ∧
      b.Adds gap (headerTree k seg) rest (missing k seg + n) z := by
  have hsig : k.isTrivia = false := by simp [Token.isTrivia, hk, TokenKind.isTrivia]
  have htake := Builder.took_next hsig (hb.opened hgap hsig)
  obtain ⟨z, m, hm, hz, hreads, hbuilt, herrors⟩ := runs_library h htake.reads hk
  have hstops : stops k = [.semicolon, .importKw] := if_pos hk
  rw [hstops] at hz
  have htree : headerTree k seg = .node .importDirective z.built.reverse := by
    rw [headerTree, if_pos hk, hbuilt, htake.built]
    simp [Builder.opened]
  have herrors' : z.errors.length = missing k seg + n + b.errors.length := by
    rw [herrors, htake.errors, Nat.zero_add]
    rfl
  exact ⟨_, .node (.andThen (.take _) (.andThen hm hz)),
    htree ▸ Builder.adds_closeNode hgap hsig hb .importDirective hreads herrors'⟩

theorem runs_header (hk : k.kind.opensHeader) (hgap : ∀ g ∈ gap, g.isTrivia)
    (h : HeaderBody k seg rest n) (hb : b.Reads (gap ++ k :: (seg ++ rest))) :
    ∃ z, Runs Grammar.body Grammar.turn b z ∧
      b.Adds gap (headerTree k seg) rest (missing k seg + n) z := by
  have hsig := isTrivia_of_opensHeader hk
  have hahead := hb.ahead.trans (significant_gap hgap hsig)
  obtain ⟨z, hz, hadds⟩ : ∃ z, Runs Grammar.body Grammar.item b z ∧
      b.Adds gap (headerTree k seg) rest (missing k seg + n) z := by
    by_cases himport : k.kind = .importKw
    · obtain ⟨z, hz, hadds⟩ := runs_import himport hgap h hb
      refine ⟨z, .look ?_, hadds⟩
      simpa [hahead, startsWith, kind?, himport] using Runs.call hz
    · have hother : k.kind = .exportKw ∨ k.kind = .libraryKw := by
        revert hk himport
        cases k.kind <;> simp [TokenKind.opensHeader]
      obtain ⟨z, hz, hadds⟩ := runs_directive hother hgap h hb
      refine ⟨z, .look ?_, ?_⟩
      · rcases hother with hk | hk <;>
          simpa [hahead, startsWith, startsWithAny, kind?, hk] using Runs.call hz
      · simpa [missing, himport] using hadds
  refine ⟨z, .insistMoved (.call hz) fun hstuck => ?_, hadds⟩
  have htogo := hz.taken_eq_iff.1 hstuck.1
  simp [Builder.togo, hb.left, hadds.reads.left] at htogo
  omega

end Header

namespace Parse

theorem ofTokens_header {k : Token} {gap seg rest : List Token} {n : Nat}
    (hk : k.kind.opensHeader) (hgap : ∀ g ∈ gap, g.isTrivia) (h : HeaderBody k seg rest n) :
    (ofTokens (gap ++ k :: (seg ++ rest))).items =
      gap.map .leaf ++ headerTree k seg :: (ofTokens rest).items ∧
    (ofTokens (gap ++ k :: (seg ++ rest))).errors.length =
      missing k seg + n + (ofTokens rest).errors.length := by
  have hsig := isTrivia_of_opensHeader hk
  obtain ⟨z, hz, hadds⟩ := runs_header hk hgap h (Builder.reads_ofTokens _)
  have hne : significant (gap ++ k :: (seg ++ rest)) ≠ [] := by
    rw [significant_gap hgap hsig]
    simp
  obtain ⟨hitems, herrors⟩ := ofTokens_of_turn hne hz
  rw [hadds.reads.left] at hitems herrors
  refine ⟨?_, ?_⟩
  · rw [hitems, hadds.built]
    simp [Builder.ofTokens]
  · rw [herrors, List.length_append, List.length_reverse, List.length_map, hadds.errors]
    rfl

theorem ofTokens_trivia {gap : List Token} (hgap : ∀ g ∈ gap, g.isTrivia) :
    ofTokens gap = ⟨gap.map .leaf, []⟩ := by
  have hahead : (Builder.ofTokens gap).ahead = [] := significant_eq_nil hgap
  have hread := (runs_file gap).unique (.repeatStop (by simp [hahead]))
  rw [ofTokens_eq, hread]
  simp [Builder.attach, Builder.ofTokens, leadingTrivia_eq_self hgap]

end Parse

end CrossReference.Source
