import CrossReference.Proofs.Import.Edit

namespace CrossReference.Import

open Source

theorem opensHead_headerTree {k : Token} (hk : k.kind.opensHeader) (seg : List Token) :
    opensHead (headerTree k seg) := by
  rw [headerTree]
  split
  · rfl
  · have hpart : k.kind ≠ .partKw := by
      intro h
      simp [h, TokenKind.opensHeader] at hk
    rw [opensHead, Tree.tokensAll_leaves]
    simp [hpart]

theorem isNode_headerTree (k : Token) (seg : List Token) : (headerTree k seg).isNode := by
  rw [headerTree]
  split <;> rfl

theorem opensHead_of_settled {tree : Tree} (h : tree.Settled) (hnode : tree.isNode) :
    opensHead tree := by
  rcases h with ⟨g, _, rfl⟩ | ⟨k, seg, hk, rfl, _⟩
  · cases hnode
  · exact opensHead_headerTree hk seg

theorem not_opensHead {t : Token} {tree : Tree} (h : tree.StartsBody t) :
    tree.isNode ∧ opensHead tree = false := by
  match tree with
  | .leaf _ => exact absurd h id
  | .node kind children =>
    refine ⟨rfl, ?_⟩
    cases kind with
    | importDirective => exact absurd h id
    | directive =>
      obtain ⟨hpart, hhead⟩ := h
      simp [opensHead, hhead, hpart]
    | _ => rfl

theorem head?_line (uri : String) (y : List Char) (c : Char)
    (h : ((line uri ++ "\n").toList ++ y).head? = some c) : Token.isBlank c = false := by
  rw [toList_line] at h
  obtain rfl : 'i' = c := by simpa [Token.importHead] using h
  decide

theorem isBlank_of_significant {t : Token} {ts : List Token} {x rest : List Char}
    (h : Token.Scans x (t :: ts) rest) (ht : t.isTrivia = false) (c : Char)
    (hc : x.head? = some c) : Token.isBlank c = false := by
  cases h with
  | @next d cs _ _ _ =>
    obtain rfl : d = c := by simpa using hc
    cases hb : Token.isBlank d with
    | false => rfl
    | true => simp [Token.isTrivia, Token.reach_blank hb, TokenKind.isTrivia] at ht

theorem head?_drop_runLength {p : Char → Bool} {x : List Char} {c : Char}
    (h : (x.drop (Token.runLength p x)).head? = some c) : p c = false := by
  induction x with
  | nil => simp at h
  | cons a x ih =>
    cases ha : p a with
    | true =>
      rw [Token.runLength, if_pos ha, List.drop_succ_cons] at h
      exact ih h
    | false =>
      obtain rfl : a = c := by simpa [Token.runLength, ha] using h
      exact ha

theorem whitespace_of_gap {g t : Token} {ts : List Token} {x rest : List Char}
    (h : Token.Scans x (g :: t :: ts) rest) (hg : g.isTrivia) (ht : t.isTrivia = false) :
    g.kind = .whitespace := by
  cases h with
  | @next c cs _ _ hnext =>
    have hkind : (Token.reach c cs).1 = .whitespace ∨ (Token.reach c cs).1 = .comment := by
      revert hg
      cases hk : (Token.reach c cs).1 <;> simp [Token.isTrivia, hk, TokenKind.isTrivia]
    rcases hkind with hk | hk
    · exact hk
    · obtain ⟨comment, rfl, rfl⟩ := Token.eq_comment hk
      rw [Token.reach_comment, List.drop_succ_cons] at hnext
      cases hd : (comment.drop (Token.runLength (· != '\n') comment)).head? with
      | none =>
        rw [List.head?_eq_none_iff.1 hd] at hnext
        cases hnext
      | some d =>
        have hblank := isBlank_of_significant hnext ht d hd
        obtain rfl : d = '\n' := by simpa using head?_drop_runLength hd
        exact absurd hblank (by decide)

section Body

variable {text uri : String} {head gap rest : List Token} {t : Token}

theorem scan_insert (huri : Plain uri) (hscan : Token.scan text = head ++ gap ++ t :: rest)
    (hhead : head = [] ∨ ∃ init semi, head = init ++ [semi] ∧ semi.kind = .semicolon)
    (hgap : ∀ g ∈ gap, g.isTrivia) (ht : t.isTrivia = false) :
    Token.scan (spelling (head ++ gap) ++ (line uri ++ "\n") ++ spelling (t :: rest)) =
      head ++ gap ++ lineTokens uri ++ t :: rest := by
  have hall := Token.scans_scanChars text.toList
  obtain ⟨mid, hbefore, hafter⟩ := hall.split hscan
  have htext : text.toList = chars (head ++ gap) ++ mid := hbefore.chars_eq
  have hmid : mid = chars (t :: rest) := by simpa using hafter.chars_eq
  have hblank := isBlank_of_significant hafter ht
  have hcut := hbefore.cut htext
  have hline := scans_line huri hblank
  have hstays : Token.Scans (chars (head ++ gap) ++ ((line uri ++ "\n").toList ++ mid))
      (head ++ gap) ((line uri ++ "\n").toList ++ mid) := by
    refine hcut.stays (fun last hlast => ?_) (head?_line uri mid)
    cases hg : gap.getLast? with
    | none =>
      obtain rfl := List.getLast?_eq_none_iff.1 hg
      rcases hhead with rfl | ⟨init, semi, rfl, hsemi⟩
      · simp at hlast
      · obtain rfl : semi = last := by simpa using hlast
        exact .inr hsemi
    | some g =>
      obtain rfl : g = last := by simpa [List.getLast?_append, hg] using hlast
      obtain ⟨gap, rfl⟩ := List.getLast?_eq_some_iff.1 hg
      have hsplit : Token.scanChars text.toList = head ++ gap ++ g :: t :: rest := by
        rw [← Token.scan, hscan]
        simp
      obtain ⟨_, _, hgt⟩ := hall.split hsplit
      exact .inl (whitespace_of_gap hgt (hgap g (by simp)) ht)
  have hnew := (hstays.append hline).append hafter
  have heq := hnew.scanChars_eq
  rw [Token.scanChars_nil, List.append_nil] at heq
  rw [Token.scan, ← heq, hmid]
  congr 1
  simp [toList_spelling]

end Body

theorem exists_lineEnd {text : String} (hne : text ≠ "") :
    ∃ x ts last, (text ++ lineEnd text).toList = x ++ ['\n'] ∧
      Token.Scans (x ++ ['\n']) (ts ++ [last]) [] ∧
      Token.LineEnds (Token.scan text) ts last := by
  cases hl : text.toList.getLast? with
  | none => exact absurd (String.toList_eq_nil_iff.1 (List.getLast?_eq_none_iff.1 hl)) hne
  | some c =>
    obtain ⟨x, hx⟩ := List.getLast?_eq_some_iff.1 hl
    by_cases hc : c = '\n'
    · have hend : (text ++ lineEnd text).toList = text.toList := by simp [lineEnd, hl, hc]
      have hscan := Token.scans_scanChars text.toList
      rw [hend]
      subst hc
      cases ht : (Token.scan text).getLast? with
      | none =>
        have htext := Token.chars_scanChars text.toList
        rw [← Token.scan, List.getLast?_eq_none_iff.1 ht] at htext
        exact absurd (String.toList_eq_nil_iff.1 htext.symm) hne
      | some last =>
        obtain ⟨ts, hts⟩ := List.getLast?_eq_some_iff.1 ht
        have hscan : Token.Scans (x ++ ['\n']) (ts ++ [last]) [] := by
          rw [← hts, ← hx]
          exact hscan
        refine ⟨x, ts, last, hx, hscan, ?_⟩
        rcases hscan.last_newline with hk | ⟨hk, _⟩
        · exact .merged hts hk hk
        · exact .absorbed hts hk (by simp) hk
    · have hend : (text ++ lineEnd text).toList = text.toList ++ ['\n'] := by
        simp [lineEnd, hl, hc]
      obtain ⟨ts, last, hscan, hends⟩ := Token.exists_newline text.toList
      exact ⟨text.toList, ts, last, hend, hscan, hends⟩

theorem scan_append_line {text uri : String} (huri : Plain uri) {x : List Char} {ts : List Token}
    {last : Token} (hx : (text ++ lineEnd text).toList = x)
    (hscan : Token.Scans x (ts ++ [last]) []) (hlast : last.kind = .whitespace) :
    Token.scan (text ++ lineEnd text ++ (line uri ++ "\n")) = ts ++ [last] ++ lineTokens uri := by
  have hy := head?_line uri []
  have hline := scans_line huri (y := []) (by simp)
  rw [List.append_nil] at hy hline
  have hstays := hscan.stays (fun l hl => .inl (by
    obtain rfl : last = l := by simpa using hl
    exact hlast)) hy
  have heq := (hstays.append hline).scanChars_eq
  rw [Token.scanChars_nil, List.append_nil] at heq
  rw [Token.scan, ← heq, String.toList_append, hx]

theorem scan_of_scans {text : String} {ts : List Token} (h : Token.Scans text.toList ts []) :
    Token.scan text = ts := by
  rw [Token.scan, h.scanChars_eq, Token.scanChars_nil, List.append_nil]

theorem isTrivia_whitespace {t : Token} (h : t.kind = .whitespace) : t.isTrivia := by
  simp [Token.isTrivia, h, TokenKind.isTrivia]

theorem forall_mem_append_singleton {gap : List Token} {w : Token} (h : ∀ g ∈ gap, g.isTrivia)
    (hw : w.kind = .whitespace) : ∀ g ∈ gap ++ [w], g.isTrivia := by
  intro g hg
  rcases List.mem_append.1 hg with hg | hg
  · exact h g hg
  · rw [List.mem_singleton.1 hg]
    exact isTrivia_whitespace hw

theorem scan_closed {text uri : String} {head gap : List Token} (huri : Plain uri)
    (hscan : Token.scan text = head ++ gap)
    (hhead : head = [] ∨ ∃ init semi, head = init ++ [semi] ∧ semi.kind = .semicolon)
    (hgap : ∀ g ∈ gap, g.isTrivia) :
    ∃ gap', (∀ g ∈ gap', g.isTrivia) ∧ Token.scan (text ++ lineEnd text) = head ++ gap' ∧
      Token.scan (text ++ lineEnd text ++ (line uri ++ "\n")) = head ++ gap' ++ lineTokens uri := by
  by_cases hne : text = ""
  · subst hne
    obtain ⟨rfl, rfl⟩ : head = [] ∧ gap = [] := by
      have h : Token.scan "" = [] := rfl
      simpa [h] using hscan
    have hline := scans_line huri (y := []) (by simp)
    rw [List.append_nil] at hline
    exact ⟨[], by simp, rfl, scan_of_scans (by simpa [lineEnd] using hline)⟩
  obtain ⟨x, ts, last, hx, hnew, hends⟩ := exists_lineEnd hne
  have hended : Token.scan (text ++ lineEnd text) = ts ++ [last] := scan_of_scans (hx ▸ hnew)
  have hold : ∀ l, (Token.scan text).getLast? = some l → l.isTrivia ∨ l.kind = .semicolon := by
    intro l hl
    rw [hscan, List.getLast?_append] at hl
    cases hg : gap.getLast? with
    | some g =>
      obtain rfl : g = l := by simpa [hg] using hl
      exact .inl (hgap g (List.mem_of_getLast? hg))
    | none =>
      rw [hg, Option.none_or] at hl
      rcases hhead with rfl | ⟨init, semi, rfl, hsemi⟩
      · simp at hl
      · obtain rfl : semi = l := by simpa using hl
        exact .inr hsemi
  cases hends with
  | fresh hlast =>
    refine ⟨gap ++ [last], forall_mem_append_singleton hgap hlast, ?_, ?_⟩
    · rw [hended, hscan, List.append_assoc]
    · rw [scan_append_line huri hx hnew hlast, hscan, List.append_assoc head]
  | @merged _ w _ hts hw hlast =>
    have hw' : (Token.scan text).getLast? = some w := by simp [hts]
    cases hg : gap.getLast? with
    | some g =>
      obtain ⟨gap, rfl⟩ := List.getLast?_eq_some_iff.1 hg
      have hsplit : ts ++ [w] = (head ++ gap) ++ [g] := by rw [← hts, hscan, List.append_assoc]
      obtain ⟨rfl, _⟩ := List.append_inj' hsplit rfl
      refine ⟨gap ++ [last], forall_mem_append_singleton (fun g hg => hgap g (by simp [hg])) hlast,
        ?_, ?_⟩
      · rw [hended, List.append_assoc]
      · rw [scan_append_line huri hx hnew hlast, List.append_assoc head]
    | none =>
      rw [hscan, List.getLast?_append, hg, Option.none_or] at hw'
      rcases hhead with rfl | ⟨init, semi, rfl, hsemi⟩
      · simp at hw'
      · obtain rfl : semi = w := by simpa using hw'
        simp [hsemi] at hw
  | @absorbed _ es e _ hts he hes hlast =>
    have hkinds : ∀ t ∈ e :: es, t.kind = .string ∨ t.kind = .errorToken :=
      List.forall_mem_cons.2 ⟨.inr he, hes⟩
    obtain ⟨l, hl⟩ : ∃ l, (e :: es).getLast? = some l :=
      ⟨_, List.getLast?_eq_some_getLast (by simp)⟩
    have hl' : (Token.scan text).getLast? = some l := by simp [hts, List.getLast?_append, hl]
    have hkind := hkinds l (List.mem_of_getLast? hl)
    rcases hold l hl' with htriv | hsemi
    · rcases hkind with hk | hk <;> simp [Token.isTrivia, hk, TokenKind.isTrivia] at htriv
    · rcases hkind with hk | hk <;> simp [hk] at hsemi

end CrossReference.Import
