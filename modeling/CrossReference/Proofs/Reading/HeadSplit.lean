import CrossReference.Proofs.Reading.Header

namespace CrossReference.Source

open Lookahead

namespace Parse

/-- Before `rest`, the tokens `head` are read as `trees`, with `n` errors. -/
structure Heads (head : List Token) (trees : List Tree) (n : Nat) (rest : List Token) : Prop where
  items : (ofTokens (head ++ rest)).items = trees ++ (ofTokens rest).items
  errors : (ofTokens (head ++ rest)).errors.length = n + (ofTokens rest).errors.length

theorem Heads.tokens {head rest : List Token} {trees : List Tree} {n : Nat}
    (h : Heads head trees n rest) : Tree.tokensAll trees = head := by
  have hwhole := tokens_tree (head ++ rest)
  have hrest := tokens_tree rest
  rw [tree, Tree.tokens] at hwhole hrest
  rw [h.items, Tree.tokensAll_append, hrest] at hwhole
  exact List.append_cancel_right hwhole

theorem Heads.cons {k : Token} {gap seg head rest : List Token} {trees : List Tree} {n m : Nat}
    (hk : k.kind.opensHeader) (hgap : ∀ g ∈ gap, g.isTrivia)
    (hseg : HeaderBody k seg (head ++ rest) m) (h : Heads head trees n rest) :
    Heads (gap ++ k :: (seg ++ head)) (gap.map .leaf ++ headerTree k seg :: trees)
      (missing k seg + m + n) rest := by
  obtain ⟨hitems, herrors⟩ := ofTokens_header hk hgap hseg
  have heq : gap ++ k :: (seg ++ head) ++ rest = gap ++ k :: (seg ++ (head ++ rest)) := by simp
  refine ⟨?_, ?_⟩
  · rw [heq, hitems, h.items]
    simp
  · rw [heq, herrors, h.errors]
    omega

end Parse

/-- A tree in the head of a file that what follows cannot change: trivia, an import, or another
header with its semicolon. -/
def Tree.Settled (tree : Tree) : Prop :=
  (∃ g, g.isTrivia ∧ tree = .leaf g) ∨
  ∃ k seg, k.kind.opensHeader ∧ tree = headerTree k seg ∧
    (k.kind = .importKw ∨ ∃ body semi, seg = body ++ [semi] ∧ semi.kind = .semicolon)

structure OpenHeader (gap : List Token) (k : Token) (seg trail : List Token) : Prop where
  opens : k.kind.opensHeader
  gap_trivia : ∀ g ∈ gap, g.isTrivia
  trail_trivia : ∀ g ∈ trail, g.isTrivia
  free : ∀ t ∈ seg, (stops k).contains t.kind = false
  trimmed : Trimmed seg

inductive AfterHeads : List Token → Prop
  | trivia {gap : List Token} : (∀ g ∈ gap, g.isTrivia) → AfterHeads gap
  | body {gap rest : List Token} {t : Token} : (∀ g ∈ gap, g.isTrivia) → t.isTrivia = false →
      t.kind.opensHeader = false → AfterHeads (gap ++ t :: rest)
  | unclosed {gap seg trail : List Token} {k : Token} : OpenHeader gap k seg trail →
      AfterHeads (gap ++ k :: (seg ++ trail))

def nextKind? (ts : List Token) : Option TokenKind := kind? (significant ts)

theorem nextKind?_append (ts us : List Token) :
    nextKind? (ts ++ us) = (nextKind? ts).or (nextKind? us) := by
  simp only [nextKind?, kind?, significant, List.filter_append, List.head?_append]
  cases (ts.filter (!·.isTrivia)).head? <;> simp

theorem nextKind?_trivia {gap : List Token} (hgap : ∀ g ∈ gap, g.isTrivia) :
    nextKind? gap = none := by
  rw [nextKind?, significant_eq_nil hgap]
  rfl

theorem nextKind?_gap {gap ts : List Token} {t : Token} (hgap : ∀ g ∈ gap, g.isTrivia)
    (ht : t.isTrivia = false) : nextKind? (gap ++ t :: ts) = some t.kind := by
  rw [nextKind?, significant_gap hgap ht]
  rfl

/-- A file as its settled headers and what follows them. The headers stay as they are whatever
comes next, as long as an import next stays an import. -/
structure HeadSplit (ts head : List Token) (trees : List Tree) (n : Nat) (rest : List Token) :
    Prop where
  eq : ts = head ++ rest
  heads : ∀ other, (nextKind? rest = some .importKw → nextKind? other = some .importKw) →
    Parse.Heads head trees n other
  settled : ∀ tree ∈ trees, tree.Settled
  ends : nextKind? rest ≠ some .importKw →
    head = [] ∨ ∃ init semi, head = init ++ [semi] ∧ semi.kind = .semicolon
  after : AfterHeads rest

theorem exists_stop (kinds : List TokenKind) (ts : List Token) :
    (∀ t ∈ ts, kinds.contains t.kind = false) ∨
    ∃ body t rest, ts = body ++ t :: rest ∧ (∀ t ∈ body, kinds.contains t.kind = false) ∧
      kinds.contains t.kind = true := by
  induction ts with
  | nil => exact .inl (by simp)
  | cons t ts ih =>
    cases ht : kinds.contains t.kind with
    | true => exact .inr ⟨[], t, ts, rfl, by simp, ht⟩
    | false =>
      rcases ih with h | ⟨body, u, rest, rfl, hbody, hu⟩
      · exact .inl (List.forall_mem_cons.2 ⟨ht, h⟩)
      · exact .inr ⟨t :: body, u, rest, rfl, List.forall_mem_cons.2 ⟨ht, hbody⟩, hu⟩

theorem kind_of_mem_stops {k t : Token} (h : (stops k).contains t.kind = true) :
    t.kind = .semicolon ∨ k.kind = .importKw ∧ t.kind = .importKw := by
  by_cases hk : k.kind = .importKw
  · simpa [stops, hk] using h
  · exact .inl (by simpa [stops, hk] using h)

theorem not_stop_of_trivia {k t : Token} (h : t.isTrivia) : (stops k).contains t.kind = false := by
  rw [← Bool.not_eq_true]
  intro hstop
  rcases kind_of_mem_stops hstop with hk | ⟨_, hk⟩ <;>
    simp [Token.isTrivia, hk, TokenKind.isTrivia] at h

theorem OpenHeader.stops_free {gap seg trail : List Token} {k : Token}
    (h : OpenHeader gap k seg trail) :
    ∀ t ∈ seg ++ trail, (stops k).contains t.kind = false :=
  List.forall_mem_append.2 ⟨h.free, fun t ht => not_stop_of_trivia (h.trail_trivia t ht)⟩

namespace HeaderBody

variable {k : Token} {seg rest : List Token} {n : Nat}

theorem append (pre : List Token) (hpre : ∀ t ∈ pre, (stops k).contains t.kind = false)
    (hne : seg ≠ []) (h : HeaderBody k seg rest n) : HeaderBody k (pre ++ seg) rest n := by
  cases h with
  | closed body semi hbody hsemi =>
    rw [← List.append_assoc]
    exact .closed (pre ++ body) semi (List.forall_mem_append.2 ⟨hpre, hbody⟩) hsemi
  | unclosed hbody htrim hrest =>
    refine .unclosed (List.forall_mem_append.2 ⟨hpre, hbody⟩) (fun t ht => htrim t ?_) hrest
    cases hl : seg.getLast? with
    | none => exact absurd (List.getLast?_eq_none_iff.1 hl) hne
    | some u => simpa [List.getLast?_append, hl] using ht

end HeaderBody

theorem exists_headerBody (k : Token) (ts : List Token) :
    ∃ seg rest n, ts = seg ++ rest ∧ HeaderBody k seg rest n := by
  rcases exists_stop (stops k) ts with hfree | ⟨body, t, rest, rfl, hfree, ht⟩
  · obtain ⟨seg, trail, rfl, htrim, htrail⟩ := exists_trimmed ts
    exact ⟨seg, trail, 1, rfl, .unclosed (fun u hu => hfree u (List.mem_append_left _ hu)) htrim
      (.inl (significant_eq_nil htrail))⟩
  rcases kind_of_mem_stops ht with hsemi | ⟨himport, ht⟩
  · exact ⟨body ++ [t], rest, 0, by simp, .closed body t hfree hsemi⟩
  · obtain ⟨seg, trail, rfl, htrim, htrail⟩ := exists_trimmed body
    have htsig : t.isTrivia = false := by simp [Token.isTrivia, ht, TokenKind.isTrivia]
    refine ⟨seg, trail ++ t :: rest, 1, by simp, .unclosed
      (fun u hu => hfree u (List.mem_append_left _ hu)) htrim (.inr ⟨himport, ?_⟩)⟩
    exact (nextKind?_gap htrail htsig).trans (congrArg some ht)

namespace HeadSplit

variable {k : Token} {gap seg ts head rest : List Token} {trees : List Tree} {n : Nat}

theorem cons {m : Nat} (hk : k.kind.opensHeader) (hgap : ∀ g ∈ gap, g.isTrivia)
    (h : HeadSplit ts head trees n rest)
    (hseg : ∀ other, (nextKind? rest = some .importKw → nextKind? other = some .importKw) →
      HeaderBody k seg (head ++ other) m)
    (hsettled : k.kind = .importKw ∧ (head = [] → nextKind? rest = some .importKw) ∨
      ∃ body semi, seg = body ++ [semi] ∧ semi.kind = .semicolon) :
    HeadSplit (gap ++ k :: (seg ++ ts)) (gap ++ k :: (seg ++ head))
      (gap.map .leaf ++ headerTree k seg :: trees) (missing k seg + m + n) rest := by
  refine ⟨by simp [h.eq], fun other hother => .cons hk hgap (hseg other hother)
    (h.heads other hother), ?_, ?_, h.after⟩
  · intro tree ht
    rcases List.mem_append.1 ht with ht | ht
    · obtain ⟨g, hg, rfl⟩ := List.mem_map.1 ht
      exact .inl ⟨g, hgap g hg, rfl⟩
    · rcases List.mem_cons.1 ht with rfl | ht
      · exact .inr ⟨k, seg, hk, rfl, hsettled.imp_left And.left⟩
      · exact h.settled tree ht
  · intro hrest
    refine .inr ?_
    rcases h.ends hrest with rfl | ⟨init, semi, rfl, hsemi⟩
    · rcases hsettled with ⟨_, himport⟩ | ⟨body, semi, rfl, hsemi⟩
      · exact absurd (himport rfl) hrest
      · exact ⟨gap ++ k :: body, semi, by simp, hsemi⟩
    · exact ⟨gap ++ k :: (seg ++ init), semi, by simp, hsemi⟩

theorem nil (h : AfterHeads ts) : HeadSplit ts [] [] 0 ts :=
  ⟨rfl, fun _ _ => ⟨rfl, by simp⟩, by simp, fun _ => .inl rfl, h⟩

end HeadSplit

theorem exists_headSplit (ts : List Token) :
    ∃ head trees n rest, HeadSplit ts head trees n rest := by
  induction h : ts.length using Nat.strongRecOn generalizing ts with
  | _ size ih =>
    rcases trivia_or_gap ts with htriv | ⟨gap, k, ts, rfl, hgap, hsig⟩
    · exact ⟨_, _, _, _, .nil (.trivia htriv)⟩
    cases hk : k.kind.opensHeader with
    | false => exact ⟨_, _, _, _, .nil (.body hgap hsig hk)⟩
    | true =>
      obtain ⟨seg, rest, m, rfl, hseg⟩ := exists_headerBody k ts
      cases hseg with
      -- The header is closed: whatever follows leaves it alone.
      | closed body semi hbody hsemi =>
        obtain ⟨head, trees, n, after, hsplit⟩ := ih rest.length (by simp [← h]; omega) rest rfl
        exact ⟨_, _, _, _, hsplit.cons hk hgap (fun _ _ => .closed body semi hbody hsemi)
          (.inr ⟨body, semi, rfl, hsemi⟩)⟩
      | unclosed hfree htrim hends =>
        rcases hends with hend | ⟨himport, hnext⟩
        · have htrail : ∀ g ∈ rest, g.isTrivia := by simpa [significant] using hend
          exact ⟨_, _, _, _, .nil (.unclosed ⟨hk, hgap, htrail, hfree, htrim⟩)⟩
        -- The next import cuts it off, so that import has to stay.
        · obtain ⟨head, trees, n, after, hsplit⟩ := ih rest.length (by simp [← h]; omega) rest rfl
          have hnext : nextKind? (head ++ after) = some .importKw := hsplit.eq ▸ hnext
          have hseg (other : List Token)
              (hother : nextKind? after = some .importKw → nextKind? other = some .importKw) :
              HeaderBody k seg (head ++ other) 1 := by
            refine .unclosed hfree htrim (.inr ⟨himport, ?_⟩)
            change nextKind? _ = _
            rw [nextKind?_append] at hnext ⊢
            cases hhead : nextKind? head with
            | some kind => simpa [hhead] using hnext
            | none => simpa [hhead] using hother (by simpa [hhead] using hnext)
          have hcut : head = [] → nextKind? after = some .importKw := by
            rintro rfl
            exact hnext
          exact ⟨_, _, _, _, hsplit.cons hk hgap hseg (.inl ⟨himport, hcut⟩)⟩

end CrossReference.Source
