import CrossReference.Proofs.Scanning.Local
import CrossReference.Proofs.Scanning.Scans

namespace CrossReference.Source.Token

section First

variable {c : Char} {x y : List Char}

theorem first_append (h : reach c (x ++ y) = reach c x) (hle : (reach c x).2 ≤ x.length) :
    first c (x ++ y) = first c x := by
  rw [first, first, h, List.take_append_of_le_length hle]

theorem Scans.next_append {ts : List Token} {rest : List Char}
    (h : reach c (x ++ y) = reach c x) (hle : (reach c x).2 ≤ x.length)
    (hts : Scans (x.drop (reach c x).2 ++ y) ts rest) :
    Scans (c :: (x ++ y)) (first c x :: ts) rest := by
  rw [← first_append h hle]
  refine .next ?_
  rwa [h, List.drop_append_of_le_length hle]

end First

namespace Scans

variable {cs x rest : List Char} {ts : List Token} {last : Token}

theorem cut (h : Scans cs ts rest) : ∀ {x : List Char}, cs = x ++ rest → Scans x ts [] := by
  induction h with
  | done rest =>
    intro x hx
    obtain rfl : x = [] := by simpa using hx
    exact .done []
  | @next c cs ts rest h ih =>
    intro x hx
    by_cases hrest : rest = []
    · rw [hrest, List.append_nil] at hx
      rw [← hx, ← hrest]
      exact .next h
    have hlen := congrArg List.length h.chars_eq
    rw [List.length_drop, List.length_append] at hlen
    cases x with
    | nil =>
      have := congrArg List.length hx
      simp at this
      have := List.length_pos_iff.2 hrest
      omega
    | cons d x =>
      rw [List.cons_append] at hx
      obtain ⟨rfl, rfl⟩ := List.cons.inj hx
      rw [List.length_append] at hlen
      have hpos := List.length_pos_iff.2 hrest
      have hle : (reach c (x ++ rest)).2 ≤ x.length := by omega
      rcases reach_append c x rest with hsame | ⟨hlt, _⟩
      · rw [hsame] at hle ih
        rw [first_append hsame hle]
        exact .next (ih (List.drop_append_of_le_length hle))
      · omega

theorem extend (h : Scans x (ts ++ [last]) []) (hend : EndsInStop x) (y : List Char) :
    Scans (x ++ y) ts (last.text.toList ++ y) := by
  induction ts generalizing x with
  | nil =>
    have hx : x = last.text.toList := by simpa using h.chars_eq
    rw [hx]
    exact .done _
  | cons t ts ih =>
    cases h with
    | @next c cs _ _ h =>
      have h : Scans (cs.drop (reach c cs).2) (ts ++ [last]) [] := h
      have hlt : (reach c cs).2 < cs.length := by
        have hlast : last.text ≠ "" := h.text_ne_empty last (by simp)
        have hne : cs.drop (reach c cs).2 ≠ [] := by
          rw [h.chars_eq]
          simpa using fun _ => hlast
        have hpos := List.length_pos_iff.2 hne
        rw [List.length_drop] at hpos
        omega
      rcases reach_append c cs y with hsame | ⟨_, hfull⟩
      · exact .next_append hsame (Nat.le_of_lt hlt) (ih h (hend.tail.drop _))
      · have := hfull hend.tail
        omega

end Scans

theorem ofWord_ne {kind : TokenKind} (hident : kind ≠ .ident)
    (hkeyword : ∀ e ∈ TokenKind.keywords, e.2 ≠ kind) (word : String) :
    TokenKind.ofWord word ≠ kind := by
  have hlookup (table : List (String × TokenKind)) (htable : ∀ e ∈ table, e.2 ≠ kind) :
      (table.lookup word).getD .ident ≠ kind := by
    induction table with
    | nil => exact hident.symm
    | cons e table ih =>
      obtain ⟨he, hrest⟩ := List.forall_mem_cons.1 htable
      obtain ⟨key, value⟩ := e
      rw [List.lookup_cons]
      split
      · exact he
      · exact ih hrest
  exact hlookup _ hkeyword

theorem kind_numberReach (first : Char) (cs : List Char) :
    (numberReach first cs).1 = .intNumber ∨ (numberReach first cs).1 = .floatNumber := by
  rw [numberReach_eq]
  split
  · exact .inl rfl
  · rw [tailReach]
    split
    · exact .inr rfl
    · split
      · exact .inr rfl
      · exact .inl rfl

theorem kind_extent (e : Extent) : e.kind = .string ∨ e.kind = .errorToken := by
  cases h : e.closed <;> simp [Extent.kind, h]

def IsPlain (kind : TokenKind) : Prop :=
  kind ∉ [.string, .errorToken, .intNumber, .floatNumber, .ident] ∧
    ∀ e ∈ TokenKind.keywords, e.2 ≠ kind

instance (kind : TokenKind) : Decidable (IsPlain kind) := inferInstanceAs (Decidable (_ ∧ _))

theorem reach_plain {c : Char} {cs : List Char} (hplain : IsPlain (reach c cs).1) :
    isBlank c ∧ (reach c cs).1 = .whitespace ∨
    (∃ rest, c = '/' ∧ cs = '/' :: rest ∧ (reach c cs).1 = .comment) ∨
    ∃ m ∈ marks, m.2 = (reach c cs).1 ∧ m.1.isPrefixOf (c :: cs) := by
  obtain ⟨hkind, hword⟩ := hplain
  have hform := reached c cs
  generalize reach c cs = r at hkind hword hform ⊢
  cases hform with
  | blank h => exact .inl ⟨h, rfl⟩
  | quote h =>
    rcases kind_extent (stringExtent c cs) with he | he <;> simp [he] at hkind
  | number h =>
    rcases kind_numberReach c cs with he | he <;> simp [he] at hkind
  | @raw q _ h rest =>
    rw [rawReach] at hkind
    split at hkind
    · simp at hkind
    · rcases kind_extent (stringExtent q rest) with he | he <;> simp [he] at hkind
  | word h =>
    have hident : (wordReach c cs).1 ≠ .ident := by
      intro he
      simp [he] at hkind
    exact absurd rfl (ofWord_ne hident hword (String.ofList (c :: cs.take (wordReach c cs).2)))
  | comment hc rest => exact .inr (.inl ⟨rest, hc, rfl, rfl⟩)
  | block => simp at hkind
  | mark =>
    rw [markReach] at hkind ⊢
    split at hkind
    · next m h =>
      exact .inr (.inr ⟨m, List.mem_of_find?_eq_some h, rfl, by simpa using List.find?_some h⟩)
    · simp at hkind

theorem isBlank_of_whitespace {c : Char} {cs : List Char} (h : (reach c cs).1 = .whitespace) :
    isBlank c := by
  have hmarks : ∀ m ∈ marks, m.2 ≠ .whitespace := by decide
  have hplain : IsPlain (reach c cs).1 := by rw [h]; decide
  rcases reach_plain hplain with ⟨hb, _⟩ | ⟨_, _, _, hk⟩ | ⟨m, hm, hk, _⟩
  · exact hb
  · simp [h] at hk
  · exact absurd (hk.trans h) (hmarks m hm)

theorem eq_of_sign {kind : TokenKind} {d : Char} (hplain : IsPlain kind)
    (hkind : kind ∉ [.whitespace, .comment]) (hmarks : ∀ m ∈ marks, m.2 = kind → m.1 = [d])
    {c : Char} {cs : List Char} (h : (reach c cs).1 = kind) : c = d := by
  rcases reach_plain (h.symm ▸ hplain) with ⟨_, hk⟩ | ⟨_, _, _, hk⟩ | ⟨m, hm, hk, hp⟩
  · simp [← h, hk] at hkind
  · simp [← h, hk] at hkind
  · rw [hmarks m hm (hk.trans h)] at hp
    have hc : d = c := by simpa using hp
    exact hc.symm

theorem eq_semicolon {c : Char} {cs : List Char} (h : (reach c cs).1 = .semicolon) : c = ';' :=
  eq_of_sign (by decide) (by decide) (by decide) h

theorem eq_comment {c : Char} {cs : List Char} (h : (reach c cs).1 = .comment) :
    ∃ rest, c = '/' ∧ cs = '/' :: rest := by
  have hmarks : ∀ m ∈ marks, m.2 ≠ .comment := by decide
  have hplain : IsPlain (reach c cs).1 := by rw [h]; decide
  rcases reach_plain hplain with ⟨_, hk⟩ | ⟨rest, hc, hcs, _⟩ | ⟨m, hm, hk, _⟩
  · simp [h] at hk
  · exact ⟨rest, hc, hcs⟩
  · exact absurd (hk.trans h) (hmarks m hm)

theorem reach_semicolon (cs : List Char) : reach ';' cs = (.semicolon, 0) := by
  rw [reach_mark rfl rfl rfl rfl (by simp)]
  simp [markReach, marks]

theorem runLength_append_of_head {p : Char → Bool} {y : List Char}
    (hy : ∀ c, y.head? = some c → p c = false) (x : List Char) :
    runLength p (x ++ y) = runLength p x := by
  induction x with
  | nil =>
    cases y with
    | nil => rfl
    | cons c y => simp [runLength, hy c rfl]
  | cons a x ih => simp [runLength, ih]

theorem of_length_le_runLength {p : Char → Bool} {x : List Char} (h : x.length ≤ runLength p x) :
    ∀ c ∈ x, p c := by
  intro c hc
  refine of_mem_take_runLength p h ?_
  rwa [List.take_length]

theorem EndsInStop.append {x y : List Char} (hy : EndsInStop y) (hne : y ≠ []) :
    EndsInStop (x ++ y) := by
  intro c hc
  rw [List.getLast?_append] at hc
  cases hl : y.getLast? with
  | none => exact absurd (List.getLast?_eq_none_iff.1 hl) hne
  | some d => exact hy c (by simpa [hl] using hc)

theorem endsInStop_of_blank {x : List Char} (h : ∀ c ∈ x, isBlank c) : EndsInStop x := by
  intro c hc
  simp [isStop, h c (List.mem_of_getLast? hc)]

namespace Scans

variable {x y : List Char} {ts : List Token} {last : Token}

theorem single (h : Scans x [last] []) :
    ∃ c cs, x = c :: cs ∧ last = first c cs ∧ cs.length ≤ (reach c cs).2 := by
  cases h with
  | @next c cs _ _ h =>
    refine ⟨c, cs, rfl, rfl, ?_⟩
    have hdrop : cs.drop (reach c cs).2 = [] := by simpa using h.chars_eq
    simpa using hdrop

theorem single_stays (h : Scans x [last] [])
    (hlast : last.kind = .whitespace ∨ last.kind = .semicolon)
    (hy : ∀ c, y.head? = some c → isBlank c = false) :
    EndsInStop x ∧ Scans (x ++ y) [last] y := by
  obtain ⟨c, cs, rfl, rfl, hle⟩ := h.single
  have hstays (hsame : reach c (cs ++ y) = reach c cs) (hlen : (reach c cs).2 = cs.length) :
      Scans (c :: cs ++ y) [first c cs] y := by
    refine .next_append hsame (Nat.le_of_eq hlen) ?_
    rw [hlen, List.drop_length]
    exact .done y
  rcases hlast with hk | hk
  · have hb := isBlank_of_whitespace hk
    rw [reach_blank hb] at hle
    refine ⟨endsInStop_of_blank (List.forall_mem_cons.2 ⟨hb, of_length_le_runLength hle⟩), ?_⟩
    refine hstays ?_ ?_
    · rw [reach_blank hb, reach_blank hb, runLength_append_of_head hy]
    · rw [reach_blank hb]
      exact Nat.le_antisymm (runLength_le _ _) hle
  · obtain rfl := eq_semicolon hk
    obtain rfl : cs = [] := by simpa [reach_semicolon] using hle
    refine ⟨fun d hd => ?_, hstays ?_ ?_⟩
    · obtain rfl : ';' = d := by simpa using hd
      decide
    · rw [reach_semicolon, reach_semicolon]
    · rw [reach_semicolon]
      rfl

theorem stays (h : Scans x ts [])
    (hlast : ∀ last, ts.getLast? = some last → last.kind = .whitespace ∨ last.kind = .semicolon)
    (hy : ∀ c, y.head? = some c → isBlank c = false) : Scans (x ++ y) ts y := by
  cases hl : ts.getLast? with
  | none =>
    obtain rfl := List.getLast?_eq_none_iff.1 hl
    obtain rfl : x = [] := by simpa using h.chars_eq
    exact .done y
  | some last =>
  obtain ⟨ts, rfl⟩ := List.getLast?_eq_some_iff.1 hl
  obtain ⟨mid, hts, hsingle⟩ := h.split rfl
  obtain ⟨hend, hlast⟩ := hsingle.single_stays (hlast last hl) hy
  have hmid : mid = last.text.toList := by simpa using hsingle.chars_eq
  have hne : mid ≠ [] := by
    obtain ⟨c, cs, rfl, _⟩ := hsingle.single
    simp
  have hx : EndsInStop x := by
    rw [hts.chars_eq]
    exact hend.append hne
  exact (h.extend hx y).append (hmid ▸ hlast)

end Scans

theorem Scans.alone {cs rest : List Char} {ts : List Token} (h : Scans cs ts rest) :
    scanChars (chars ts) = ts := by
  have hcut : Scans (chars ts) ts [] := h.cut h.chars_eq
  rw [hcut.scanChars_eq, scanChars_nil, List.append_nil]

theorem scan_spelling_of_infix {text : String} {ts : List Token} (h : ts <:+: scan text) :
    scan (spelling ts) = ts := by
  obtain ⟨before, after, hsplit⟩ := h
  obtain ⟨_, hfront, -⟩ := (scans_scanChars text.toList).split hsplit.symm
  obtain ⟨_, -, hts⟩ := hfront.split rfl
  rw [scan, toList_spelling, hts.alone]

theorem scan_text_eq_singleton {text : String} {t : Token} (h : t ∈ scan text) :
    scan t.text = [t] := by
  obtain ⟨before, after, hsplit⟩ := List.append_of_mem h
  have hinfix : [t] <:+: scan text := ⟨before, after, by simp [hsplit]⟩
  have hspelling : spelling [t] = t.text := by simp [spelling]
  rw [← hspelling, scan_spelling_of_infix hinfix]

theorem scan_text_eq_singleton_before_quotes :
    (⟨.errorToken, "'''a"⟩ : Token) ∈ scan "'''a''" ∧ scan "'''a" = [⟨.errorToken, "'''a"⟩] := by
  have h : (⟨.errorToken, "'''a"⟩ : Token) ∈ scan "'''a''" := by decide +kernel
  exact ⟨h, scan_text_eq_singleton h⟩

end CrossReference.Source.Token
