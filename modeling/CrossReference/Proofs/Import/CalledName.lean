import CrossReference.Proofs.Printing.Lexeme
import CrossReference.Proofs.Reading.Application
import CrossReference.Proofs.Reference.Landing
import CrossReference.Proofs.Tree.ChainRoot
import CrossReference.Reference.Import
import Mathlib.Data.List.DropRight

/-!
The name in a report and the name that its fix looks for. A reference is reported with its call, and
the fix cuts the call off at its parenthesis, which leaves the name when only blanks stand between
the two.
-/

namespace CrossReference

open Source (Node NodeKind Token TokenKind Tree)

namespace Text

section Lists

variable {α : Type} {p q : α → Bool} {xs ys : List α}

theorem rdropWhile_append (h : ∀ x ∈ xs, p x = false) (ys : List α) :
    (xs ++ ys).rdropWhile p = xs ++ ys.rdropWhile p := by
  have hself : xs.reverse.dropWhile p = xs.reverse := by
    cases hxs : xs.reverse with
    | nil => rfl
    | cons x rest =>
      have hx : x ∈ xs := List.mem_reverse.1 (by simp [hxs])
      rw [List.dropWhile_cons_of_neg (by simp [h x hx])]
  rw [List.rdropWhile, List.reverse_append, List.dropWhile_append, hself, List.rdropWhile]
  split
  · next hnone => simp [List.isEmpty_iff.1 hnone]
  · simp

theorem all_takeWhile_rdropWhile :
    (∀ x ∈ (xs.rdropWhile p).takeWhile q, p x = true) ↔ ∀ x ∈ xs.takeWhile q, p x = true := by
  have htail : ∀ x ∈ xs.rtakeWhile p, p x = true := fun x => List.mem_rtakeWhile_imp
  generalize hfront : xs.rdropWhile p = front
  have hxs : xs = front ++ xs.rtakeWhile p := by rw [← hfront, List.rdropWhile_append_rtakeWhile]
  generalize xs.rtakeWhile p = tail at htail hxs
  subst hxs
  rw [List.takeWhile_append]
  split
  · next hall =>
    have hfront : front.takeWhile q = front := (List.takeWhile_prefix q).eq_of_length hall
    have htaken : ∀ x ∈ tail.takeWhile q, p x = true :=
      fun x hx => htail x ((List.takeWhile_prefix q).subset hx)
    rw [hfront, List.forall_mem_append]
    exact ⟨fun h => ⟨h, htaken⟩, And.left⟩
  · exact Iff.rfl

end Lists

theorem trim_append {name : List Char} (hname : ∀ c ∈ name, isBlank c = false) (hne : name ≠ [])
    (rest : List Char) : trim (name ++ rest) = name ++ rest.rdropWhile isBlank := by
  have hstart : (name ++ rest).dropWhile isBlank = name ++ rest := by
    obtain ⟨c, cs, rfl⟩ := List.exists_cons_of_ne_nil hne
    rw [List.cons_append, List.dropWhile_cons_of_neg (by simp [hname c])]
  have htrim : trim (name ++ rest) = ((name ++ rest).dropWhile isBlank).rdropWhile isBlank := rfl
  rw [htrim, hstart, rdropWhile_append hname]

end Text

theorem Import.stripCall_trimmed {name : String}
    (hname : ∀ c ∈ name.toList, Text.isBlank c = false ∧ c ≠ '(') (hne : name.toList ≠ [])
    (rest : List Char) :
    stripCall (Diagnostic.trimmed (String.ofList (name.toList ++ rest))) = name ↔
      ∀ c ∈ rest.takeWhile (· != '('), Text.isBlank c = true := by
  have hblank : ∀ c ∈ name.toList, Text.isBlank c = false := fun c hc => (hname c hc).1
  have hkept : ∀ c ∈ name.toList, (c != '(') = true := fun c hc => bne_iff_ne.2 (hname c hc).2
  rw [stripCall, Diagnostic.trimmed, String.toList_ofList, String.toList_ofList,
    Text.trim_append hblank hne, List.takeWhile_append_of_pos hkept, Text.trim_append hblank hne,
    ← String.toList_inj, String.toList_ofList, List.append_right_eq_self,
    List.rdropWhile_eq_nil_iff, Text.all_takeWhile_rdropWhile]

namespace Source.Token

variable {c : Char} {cs : List Char} {t : Token} {text : String}

theorem blank_of_isBlank (h : isBlank c = true) : Text.isBlank c = true ∧ c ≠ '(' := by
  have hc : c ∈ [' ', '\t', '\r', '\n', '\x0c'] := by simpa [isBlank, or_assoc] using h
  simp only [List.mem_cons, List.not_mem_nil, or_false] at hc
  rcases hc with rfl | rfl | rfl | rfl | rfl <;> exact ⟨rfl, by decide⟩

theorem blank_of_whitespace (h : t ∈ scan text) (hkind : t.kind = .whitespace) :
    ∀ c ∈ t.text.toList, Text.isBlank c = true ∧ c ≠ '(' := by
  obtain ⟨c, cs, rfl⟩ := exists_first h
  have hc := isBlank_of_whitespace hkind
  intro a ha
  rw [toList_text_first, reach_blank hc] at ha
  rcases List.mem_cons.1 ha with rfl | ha
  · exact blank_of_isBlank hc
  · exact blank_of_isBlank (of_mem_take_runLength isBlank (Nat.le_refl _) ha)

theorem head_of_sign {kind : TokenKind} {d : Char} (hplain : IsPlain kind)
    (hkind : kind ∉ [.whitespace, .comment]) (hmarks : ∀ m ∈ marks, m.2 = kind → m.1 = [d])
    (h : t ∈ scan text) (ht : t.kind = kind) : ∃ rest, t.text.toList = d :: rest := by
  obtain ⟨c, cs, rfl⟩ := exists_first h
  rw [eq_of_sign hplain hkind hmarks ht]
  exact ⟨_, toList_text_first _ _⟩

theorem head_of_comment (h : t ∈ scan text) (ht : t.kind = .comment) :
    ∃ rest, t.text.toList = '/' :: rest := by
  obtain ⟨c, cs, rfl⟩ := exists_first h
  obtain ⟨_, rfl, _⟩ := eq_comment ht
  exact ⟨_, toList_text_first _ _⟩

theorem isWordChar_of_word (h : t ∈ scan text) (ht : t.kind ∈ [.ident, .thisKw, .superKw]) :
    ∀ a ∈ t.text.toList, isWordChar a = true := by
  have hmarks : ∀ m ∈ marks, m.2 ∉ [.ident, .thisKw, .superKw] := by decide
  obtain ⟨c, cs, rfl⟩ := exists_first h
  rw [kind_first] at ht
  rw [toList_text_first]
  have hform := reached c cs
  generalize reach c cs = r at ht hform ⊢
  cases hform with
  | blank | comment | block => simp at ht
  | quote =>
    rcases kind_extent (stringExtent c cs) with he | he <;> simp [he] at ht
  | number =>
    rcases kind_numberReach c cs with he | he <;> simp [he] at ht
  | @raw q hc _ rest =>
    rw [rawReach] at ht ⊢
    split at ht
    · next hopen =>
      subst hc
      rw [if_pos hopen]
      simp [isWordChar, isWordStart]
    · rcases kind_extent (stringExtent q rest) with he | he <;> simp [he] at ht
  | word hstart =>
    intro a ha
    rcases List.mem_cons.1 ha with rfl | ha
    · rw [isWordChar, hstart, Bool.true_or]
    · exact of_mem_take_runLength isWordChar (Nat.le_refl _) ha
  | mark =>
    rw [markReach] at ht
    split at ht
    · next m hm => exact absurd ht (hmarks m (List.mem_of_find?_eq_some hm))
    · simp at ht

theorem toNat_of_isWordChar (h : isWordChar c = true) :
    48 ≤ c.toNat ∧ c.toNat ≤ 57 ∨ 65 ≤ c.toNat ∧ c.toNat ≤ 90 ∨ 97 ≤ c.toNat ∧ c.toNat ≤ 122 ∨
      c.toNat = 95 ∨ c.toNat = 36 := by
  rw [isWordChar, isWordStart, Bool.or_eq_true, Bool.or_eq_true, Bool.or_eq_true, beq_iff_eq,
    beq_iff_eq] at h
  rcases h with ((h | rfl) | rfl) | h
  · have hletter := toNat_of_isAlpha h
    omega
  · decide
  · decide
  · obtain ⟨hlow, hhigh⟩ := Bool.and_eq_true_iff.1 h
    exact .inl ⟨of_decide_eq_true hlow, of_decide_eq_true hhigh⟩

theorem nonblank_of_isWordChar (h : isWordChar c = true) : Text.isBlank c = false ∧ c ≠ '(' := by
  have hword := toNat_of_isWordChar h
  refine ⟨?_, ?_⟩
  · simp only [Text.isBlank, Bool.or_eq_false_iff, Bool.and_eq_false_iff, decide_eq_false_iff_not,
      beq_eq_false_iff_ne]
    omega
  · rintro rfl
    exact absurd h (by decide)

theorem chars_of_word (h : t ∈ scan text) (ht : t.kind ∈ [.ident, .thisKw, .superKw]) :
    t.text.toList ≠ [] ∧ ∀ c ∈ t.text.toList, Text.isBlank c = false ∧ c ≠ '(' := by
  have hne : t.text ≠ "" := (scans_scanChars text.toList).text_ne_empty t h
  exact ⟨by simpa using hne, fun c hc => nonblank_of_isWordChar (isWordChar_of_word h ht c hc)⟩

theorem kind_of_isTrivia (h : t.isTrivia = true) : t.kind = .whitespace ∨ t.kind = .comment := by
  rw [isTrivia] at h
  generalize t.kind = kind at h
  cases kind <;> first | exact .inl rfl | exact .inr rfl | cases h

end Source.Token

namespace Diagnostic

variable {text : String}

inductive Behind : List Token → Prop
  | alone : Behind []
  | call {gap more : List Token} {mark : Token} : (∀ g ∈ gap, g.isTrivia) →
      mark.kind ∈ [.lParen, .lAngle] → Behind (gap ++ mark :: more)

def Blank (rest : List Token) : Prop :=
  ∀ t ∈ rest.takeWhile (·.kind != .lParen), t.kind = .whitespace

section Blank

variable {t : Token} {ts : List Token}

theorem blank_iff_of_head {d : Char} {tail : List Char} (htext : t.text.toList = d :: tail)
    (hd : Text.isBlank d = false ∧ d ≠ '(') (hkind : t.kind ∉ [.lParen, .whitespace]) :
    (∀ c ∈ (Source.chars (t :: ts)).takeWhile (· != '('), Text.isBlank c = true) ↔
      Blank (t :: ts) := by
  simp only [List.mem_cons, List.not_mem_nil, or_false, not_or] at hkind
  simp [Blank, htext, hd, hkind]

theorem blank_iff_of_whitespace (ht : t ∈ Token.scan text) (hkind : t.kind = .whitespace) :
    (∀ c ∈ (Source.chars (t :: ts)).takeWhile (· != '('), Text.isBlank c = true) ↔
      ∀ c ∈ (Source.chars ts).takeWhile (· != '('), Text.isBlank c = true := by
  have hblank := Token.blank_of_whitespace ht hkind
  have hkept : ∀ c ∈ t.text.toList, (c != '(') = true := fun c hc => bne_iff_ne.2 (hblank c hc).2
  rw [Source.chars_cons, List.takeWhile_append_of_pos hkept, List.forall_mem_append]
  exact ⟨And.right, fun h => ⟨fun c hc => (hblank c hc).1, h⟩⟩

theorem blank_cons_of_whitespace (hkind : t.kind = .whitespace) : Blank (t :: ts) ↔ Blank ts := by
  simp [Blank, hkind]

theorem Behind.blank_iff {rest : List Token} (h : Behind rest)
    (hrest : ∀ t ∈ rest, t ∈ Token.scan text) :
    (∀ c ∈ (Source.chars rest).takeWhile (· != '('), Text.isBlank c = true) ↔ Blank rest := by
  cases h with
  | alone => simp [Blank]
  | @call gap more mark hgap hmark =>
    -- Both sides go past blanks, and a comment is a blank for neither.
    induction gap with
    | nil =>
      have hscan := hrest mark (by simp)
      rcases List.mem_cons.1 hmark with hmark | hmark
      · obtain ⟨tail, htext⟩ :=
          Token.head_of_sign (d := '(') (by decide) (by decide) (by decide) hscan hmark
        simp [Blank, htext, hmark]
      · have hmark := List.mem_singleton.1 hmark
        obtain ⟨tail, htext⟩ :=
          Token.head_of_sign (d := '<') (by decide) (by decide) (by decide) hscan hmark
        exact blank_iff_of_head htext (by decide) (by simp [hmark])
    | cons g gap ih =>
      obtain ⟨hg, hgap⟩ := List.forall_mem_cons.1 hgap
      obtain ⟨hscan, hrest⟩ := List.forall_mem_cons.1 hrest
      rcases Token.kind_of_isTrivia hg with hkind | hkind
      · rw [List.cons_append, blank_iff_of_whitespace hscan hkind, blank_cons_of_whitespace hkind]
        exact ih hgap hrest
      · obtain ⟨tail, htext⟩ := Token.head_of_comment hscan hkind
        exact blank_iff_of_head htext (by decide) (by simp [hkind])

end Blank

end Diagnostic

namespace Source.Node

variable {text : String} {root n p : Node}

theorem Within.everywhere {P : NodeKind → List Tree → Prop} (h : Within root n)
    (hroot : root.tree.Everywhere P) : n.tree.Everywhere P := by
  induction h with
  | root => exact hroot
  | child _ hc ih => exact Tree.everywhereAll_iff.1 ih.2 _ (tree_mem_of_mem_children hc)

theorem tokens_of_applied {callee : List Tree} (h : Tree.Applied callee p.here.children)
    (hfirst : p.firstExpr? = some n) :
    ∃ rest, Diagnostic.Behind rest ∧ p.tree.tokens = n.tree.tokens ++ rest := by
  obtain ⟨⟨pkind, children, start, index⟩, above⟩ := p
  cases h with
  | @intro kind opener gap mark inner rest hexpr hgap hmark hbegins =>
    simp only [firstExpr?, exprs, children, childrenFrom, Node.kind, hexpr, List.filter_cons,
      if_true, List.head?_cons, Option.some.injEq] at hfirst
    obtain ⟨token, more, htokens, rfl⟩ := hbegins
    subst hfirst
    refine ⟨gap ++ token :: (more ++ Tree.tokensAll rest), .call hgap hmark, ?_⟩
    simp [tree, Tree.tokens, Tree.tokensAll, htokens]

theorem Within.tokens_of_call (h : (parse text).root.Within p) (hkind : p.kind = .callExpr)
    (hfirst : p.firstExpr? = some n) :
    ∃ rest, Diagnostic.Behind rest ∧ p.tree.tokens = n.tree.tokens ++ rest := by
  have hcounted : Grammar.counted p.kind (Tree.parts p.here.children) :=
    (h.shaped (Parse.shaped_tree (Token.scan text))).1.2
  have hmarked := h.everywhere (Parse.marked_tree (Token.scan text))
  have htree : p.tree = .node .callExpr p.here.children := congrArg (Tree.node · _) hkind
  rw [hkind] at hcounted
  rw [htree] at hmarked
  obtain ⟨callee, happlied⟩ := Tree.exists_applied hcounted hmarked
  exact tokens_of_applied happlied hfirst

theorem Within.exists_slice (h : (parse text).root.Within n) {pre seg post : List Token}
    (htokens : n.tree.tokens = pre ++ seg ++ post) :
    ∃ before after, Token.scan text = before ++ seg ++ after ∧
      n.start + byteSize pre = byteSize before := by
  obtain ⟨before, after, hroot, hstart⟩ := h.slice
  have hscan := tokens_root_parse text
  have hzero : (parse text).root.start = 0 := rfl
  refine ⟨before ++ pre, post ++ after, ?_, ?_⟩
  · rw [← hscan, hroot, htokens]
    simp
  · rw [hstart, hzero, byteSize_append, Nat.zero_add]

theorem exists_of_mem_directTokensFrom {start place : Nat} {ts : List Tree} {t : Token}
    (h : (t, place) ∈ directTokensFrom start ts) :
    ∃ before after, Tree.tokensAll ts = before ++ t :: after ∧ place = start + byteSize before := by
  induction ts generalizing start with
  | nil => cases h
  | cons u us ih =>
    have behind (h : (t, place) ∈ directTokensFrom (start + u.size) us) :
        ∃ before after, Tree.tokensAll (u :: us) = before ++ t :: after ∧
          place = start + byteSize before := by
      obtain ⟨before, after, htokens, rfl⟩ := ih h
      refine ⟨u.tokens ++ before, after, ?_, ?_⟩
      · rw [Tree.tokensAll, htokens, List.append_assoc]
      · rw [byteSize_append, Tree.size_eq, Nat.add_assoc]
    cases u with
    | node kind children => exact behind h
    | leaf token =>
      rcases List.mem_cons.1 h with h | h
      · cases h
        exact ⟨[], Tree.tokensAll us, rfl, rfl⟩
      · exact behind h

end Source.Node

namespace Diagnostic

variable {text : String} {index : Declarations} {file : FileId} {d : Diagnostic} {ref : Token}
  {rest : List Token} {n m : Node}

structure Names (text : String) (d : Diagnostic) (ref : Token) (rest : List Token) : Prop where
  stands : ∃ before after, Token.scan text = before ++ (ref :: rest) ++ after ∧
    d.range = ⟨Source.byteSize before, Source.byteSize before + Source.byteSize (ref :: rest)⟩
  word : ref.kind ∈ [.ident, .thisKw, .superKw]
  message : d.message = "undefined reference: '" ++ ref.text ++ "'"
  symbol : d.symbol = trimmed (Source.spelling (ref :: rest))
  behind : Behind rest

theorem Names.stripCall_iff (h : Names text d ref rest) :
    Import.stripCall d.symbol = ref.text ↔ Blank rest := by
  obtain ⟨before, after, hscan, _⟩ := h.stands
  have hall : ∀ t ∈ ref :: rest, t ∈ Token.scan text := by
    intro t ht
    rw [hscan]
    exact List.mem_append_left _ (List.mem_append_right _ ht)
  obtain ⟨href, hrest⟩ := List.forall_mem_cons.1 hall
  obtain ⟨hne, hchars⟩ := Token.chars_of_word href h.word
  rw [h.symbol, Source.spelling_eq, Source.chars_cons, Import.stripCall_trimmed hchars hne]
  exact h.behind.blank_iff hrest

theorem names_undefined (hm : (Source.parse text).root.Within m)
    (htokens : m.tree.tokens = ref :: rest) (hword : ref.kind ∈ [.ident, .thisKw, .superKw])
    (hbehind : Behind rest) :
    Names text (undefined file m.range (trimmed m.text) ref.text) ref rest where
  stands := by
    have hself : m.tree.tokens = [] ++ (ref :: rest) ++ [] := by simp [htokens]
    obtain ⟨before, after, hscan, hstart⟩ := hm.exists_slice hself
    have hstop : m.stop = m.start + Source.byteSize (ref :: rest) := by
      rw [← htokens, Node.stop, Tree.sizeAll_eq]
      rfl
    refine ⟨before, after, hscan, ?_⟩
    rw [← hstart, Source.byteSize_nil, Nat.add_zero, ← hstop]
    rfl
  word := hword
  message := rfl
  symbol := by rw [← htokens]; rfl
  behind := hbehind

theorem reported_cases (ref : Node) (parent? : Option Node) :
    reported ref parent? = ref ∨
    ∃ p callee, parent? = some p ∧ p.kind = .callExpr ∧ p.firstExpr? = some callee ∧
      callee.isSame ref = true ∧ reported ref parent? = p := by
  cases parent? with
  | none => exact .inl rfl
  | some p =>
    rw [reported]
    split
    · next hcall =>
      obtain ⟨hkind, hfirst⟩ := Bool.and_eq_true_iff.1 hcall
      obtain ⟨callee, hcallee, hsame⟩ := (Option.any_eq_true _ _).1 hfirst
      exact .inr ⟨p, callee, rfl, beq_iff_eq.1 hkind, hcallee, hsame, rfl⟩
    · exact .inl rfl

theorem names_of_ofNameRef? (hn : (Source.parse text).root.Within n) (hkind : n.kind = .nameRef)
    (h : ofNameRef? index ⟨file, n⟩ = some d) : ∃ ref rest, Names text d ref rest := by
  obtain ⟨name, hname, h⟩ := Option.bind_eq_some_iff.1 h
  obtain ⟨word, hchildren, hword⟩ := hn.regular_parse.1.1 hkind
  have hchildren : n.here.children = [.leaf word] := hchildren
  have hself : n.tree.tokens = [word] := by
    rw [Node.tree, Tree.tokens, hchildren]
    rfl
  have hleaf : .leaf word ∈ n.here.children := by simp [hchildren]
  have hrefName := Node.refName?_of_leaf hn.regular_parse hkind hleaf
  obtain rfl : word.text = name := Option.some.inj (hrefName.symm.trans hname)
  split at h
  · cases h
    refine ⟨word, ?_⟩
    rcases reported_cases n n.parent? with
      hreported | ⟨p, callee, hp, hcall, hfirst, hsame, hreported⟩
    · rw [hreported]
      exact ⟨[], names_undefined hn hself hword .alone⟩
    · obtain ⟨hpwithin, hmem⟩ := hn.of_parent? rfl hp
      obtain rfl := Node.eq_of_isSame (Node.mem_children_of_firstExpr? hfirst) hmem hsame
      obtain ⟨rest, hbehind, htokens⟩ := hpwithin.tokens_of_call hcall hfirst
      rw [hself] at htokens
      rw [hreported]
      exact ⟨rest, names_undefined hpwithin htokens hword hbehind⟩
  · cases h

theorem trimmed_word (h : ref.text.toList ≠ [])
    (hchars : ∀ c ∈ ref.text.toList, Text.isBlank c = false) :
    trimmed (Source.spelling [ref]) = ref.text := by
  have htrim := Text.trim_append hchars h []
  rw [List.append_nil, List.rdropWhile_nil, List.append_nil] at htrim
  rw [trimmed, Source.toList_spelling, Source.chars_cons, Source.chars_nil, List.append_nil, htrim,
    String.ofList_toList]

theorem exists_head_of_ofTypeRef? (hn : (Source.parse text).root.Within n)
    (h : ofTypeRef? index ⟨file, n⟩ = some d) :
    ∃ before head after, Token.scan text = before ++ [head] ++ after ∧ head.kind = .ident ∧
      d = undefined file ⟨Source.byteSize before, Source.byteSize before + head.size⟩
        head.text head.text := by
  unfold ofTypeRef? at h
  split at h
  · next head start others hfilter =>
    split at h
    · next hall =>
      cases h
      simp only [Bool.and_eq_true, beq_iff_eq] at hall
      have hmem : (head, start) ∈ n.directTokens.filter (!·.1.isTrivia) := by simp [hfilter]
      obtain ⟨pre, post, htokens, rfl⟩ :=
        Node.exists_of_mem_directTokensFrom (List.mem_filter.1 hmem).1
      have hslice : n.tree.tokens = pre ++ [head] ++ post := by
        rw [Node.tree, Tree.tokens, htokens]
        simp
      obtain ⟨before, after, hscan, hstart⟩ := hn.exists_slice hslice
      exact ⟨before, head, after, hscan, hall.1.1.1, by rw [← hstart]⟩
    · cases h
  · cases h

theorem names_of_ofTypeRef? (hn : (Source.parse text).root.Within n)
    (h : ofTypeRef? index ⟨file, n⟩ = some d) : ∃ ref rest, Names text d ref rest := by
  obtain ⟨before, head, after, hscan, hident, rfl⟩ := exists_head_of_ofTypeRef? hn h
  have hword : head.kind ∈ [.ident, .thisKw, .superKw] := by simp [hident]
  have hmem : head ∈ Token.scan text := by simp [hscan]
  obtain ⟨hne, hchars⟩ := Token.chars_of_word hmem hword
  refine ⟨head, [], ⟨before, after, hscan, rfl⟩, hword, rfl, ?_, .alone⟩
  exact (trimmed_word hne fun c hc => (hchars c hc).1).symm

theorem exists_names (h : d ∈ check index file (Source.parse text).root) :
    ∃ ref rest, Names text d ref rest := by
  obtain ⟨n, hn, h⟩ := List.mem_filterMap.1 h
  have hwithin := Node.mem_descendants_iff.1 hn
  unfold ofNode? at h
  split at h
  · next hkind => exact names_of_ofNameRef? hwithin hkind h
  · exact names_of_ofTypeRef? hwithin h
  · cases h

end Diagnostic

theorem Suggestions.lookup?_insert_empty (name other : String) (uri : Option String) :
    ((empty.insert name uri).lookup? other).isSome = true ↔ name = other := by
  simp [insert, lookup?, empty, Table.contains, Table.put, Table.get?]

namespace Diagnostic

/-- The fix finds what is known about a name unless type arguments or a comment stand behind it. -/
theorem stripCall_symbol {index : Declarations} {file : FileId} {text : String} {d : Diagnostic}
    (h : d ∈ check index file (Source.parse text).root) :
    ∃ ref rest, Names text d ref rest ∧ (Import.stripCall d.symbol = ref.text ↔ Blank rest) ∧
      ((∀ known : Suggestions,
        known.lookup? (Import.stripCall d.symbol) = known.lookup? ref.text) ↔ Blank rest) := by
  obtain ⟨ref, rest, hnames⟩ := exists_names h
  have hstrip := hnames.stripCall_iff
  refine ⟨ref, rest, hnames, hstrip, fun hknown => hstrip.1 ?_, fun hblank known => ?_⟩
  · have hfound := (Suggestions.lookup?_insert_empty ref.text ref.text none).2 rfl
    rw [← hknown] at hfound
    exact ((Suggestions.lookup?_insert_empty _ _ _).1 hfound).symm
  · rw [hstrip.2 hblank]

theorem stripCall_symbol_of_spaced_call :
    ∃ d ∈ check .empty ⟨0⟩ (Source.parse "final b = Box (1);").root, d.symbol = "Box (1)" ∧
      ∃ ref rest, Names "final b = Box (1);" d ref rest ∧
        (Import.stripCall d.symbol = ref.text ↔ Blank rest) ∧
        ((∀ known : Suggestions,
          known.lookup? (Import.stripCall d.symbol) = known.lookup? ref.text) ↔ Blank rest) := by
  have hcheck : check .empty ⟨0⟩ (Source.parse "final b = Box (1);").root =
      [undefined ⟨0⟩ ⟨10, 17⟩ "Box (1)" "Box"] := by
    decide +kernel
  have hmem : undefined ⟨0⟩ ⟨10, 17⟩ "Box (1)" "Box" ∈
      check .empty ⟨0⟩ (Source.parse "final b = Box (1);").root := by
    rw [hcheck]
    exact List.mem_singleton_self _
  exact ⟨_, hmem, rfl, stripCall_symbol hmem⟩

theorem stripCall_symbol_of_typed_call :
    let typed := (Source.parse "final b = Box<int>(1);").root
    let noted := (Source.parse "final b = Box // of one\n(1);").root
    let known := Suggestions.empty.insert "Box" (some "package:a/box.dart")
    (∃ d ∈ check .empty ⟨0⟩ typed, d.isUnresolved = true ∧
      d.message = "undefined reference: 'Box'" ∧ Import.stripCall d.symbol = "Box<int>" ∧
      ImportFix.classify d typed known = .noSuggestion) ∧
    ∃ d ∈ check .empty ⟨0⟩ noted, d.isUnresolved = true ∧
      d.message = "undefined reference: 'Box'" ∧ Import.stripCall d.symbol = "Box // of one" ∧
      ImportFix.classify d noted known = .noSuggestion := by
  intro typed noted known
  have htyped : check .empty ⟨0⟩ typed = [undefined ⟨0⟩ ⟨10, 21⟩ "Box<int>(1)" "Box"] := by
    decide +kernel
  have hnoted : check .empty ⟨0⟩ noted = [undefined ⟨0⟩ ⟨10, 27⟩ "Box // of one\n(1)" "Box"] := by
    decide +kernel
  refine ⟨⟨_, htyped ▸ List.mem_singleton_self _, rfl, rfl, ?_, ?_⟩,
    ⟨_, hnoted ▸ List.mem_singleton_self _, rfl, rfl, ?_, ?_⟩⟩
  all_goals decide +kernel

end Diagnostic

end CrossReference
