import CrossReference.Proofs.Printing.Lexeme
import CrossReference.Proofs.Reading.Leads

namespace CrossReference.Source

open Token (Scans sign space)
open Lookahead Step Grammar

structure Written where
  tokens : List Token
  tree : Tree

section Ahead

variable {t : Token} {ts : List Token}

theorem significant_next (ht : t.isTrivia = false) :
    significant (t :: ts) = t :: significant ts := by
  simp [significant, ht]

theorem significant_after {g : Token} (hg : g.isTrivia = true) (ht : t.isTrivia = false) :
    significant (g :: t :: ts) = t :: significant ts := by
  simp [significant, hg, ht]

@[simp] theorem kind?_next : kind? (t :: ts) = some t.kind := rfl

@[simp] theorem startsWith_next (kind : TokenKind) :
    startsWith kind (t :: ts) = (t.kind == kind) := rfl

@[simp] theorem startsWithAny_next (kinds : List TokenKind) :
    startsWithAny kinds (t :: ts) = kinds.contains t.kind := rfl

@[simp] theorem kindAt?_next : kindAt? 1 (t :: ts) = kind? ts := by
  cases ts <;> rfl

def Token.EndsExpr (t : Token) : Prop := t.kind ∈ [.comma, .rParen, .rBrack, .semicolon]

theorem Token.EndsExpr.isTrivia (h : t.EndsExpr) : t.isTrivia = false := by
  have hall : ∀ kind ∈ [TokenKind.comma, .rParen, .rBrack, .semicolon], kind.isTrivia = false := by
    decide
  exact hall _ h

theorem Token.endsExpr_sign {kind : TokenKind}
    (h : kind ∈ [.comma, .rParen, .rBrack, .semicolon]) : (sign kind).EndsExpr := h

end Ahead

section Expect

variable {xs : List Tree} {ts : List Token} {t : Token} {kind : TokenKind}

theorem reads_expect (ht : t.isTrivia = false) (hkind : t.kind = kind) :
    Leads body (expect kind) xs (t :: ts) (xs ++ [.leaf t]) ts := by
  refine .look ?_
  rw [significant_next ht]
  simpa [hkind] using Leads.take ht

theorem reads_expect_after {g : Token} (hg : g.isTrivia = true) (ht : t.isTrivia = false)
    (hkind : t.kind = kind) :
    Leads body (expect kind) xs (g :: t :: ts) (xs ++ [.leaf g, .leaf t]) ts := by
  refine .look ?_
  rw [significant_after hg ht]
  simpa [hkind] using Leads.take_after ht hg

end Expect

/-- Tokens whose characters are read as these tokens before any mark that may close them. -/
structure Scanned (ts : List Token) : Prop where
  head : ∀ y, (chars ts ++ y).head?.any (!Token.isBlank ·) = true
  scans : ∀ y, y.head?.any Digits.ends = true → Scans (chars ts ++ y) ts y

/-- Tokens whose characters are read as these tokens whatever follows. -/
structure Closed (ts : List Token) : Prop where
  head : ∀ y, (chars ts ++ y).head?.any (!Token.isBlank ·) = true
  scans : ∀ y, Scans (chars ts ++ y) ts y

theorem Scanned.closed {ts : List Token} (h : Scanned ts) : Closed (ts ++ [sign .semicolon]) := by
  refine ⟨fun y => ?_, fun y => ?_⟩
  · rw [chars_append, List.append_assoc]
    exact h.head _
  · exact .join (h.scans _ rfl) (.cons (Token.stands_loose (by decide) _) (.done y))

namespace Written

def separated : List Written → List Token
  | [] => []
  | [w] => w.tokens
  | w :: v :: ws => w.tokens ++ sign .comma :: space :: separated (v :: ws)

def separatedTrees : List Written → List Tree
  | [] => []
  | [w] => [w.tree]
  | w :: v :: ws => w.tree :: .leaf (sign .comma) :: .leaf space :: separatedTrees (v :: ws)

theorem filter_separatedTrees {p : Tree → Bool} (hleaf : ∀ t, p (.leaf t) = false)
    {ws : List Written} (h : ∀ w ∈ ws, p w.tree = true) :
    (separatedTrees ws).filter p = ws.map tree := by
  induction ws with
  | nil => rfl
  | cons w ws ih =>
    obtain ⟨hw, hws⟩ := List.forall_mem_cons.1 h
    cases ws with
    | nil => simp [separatedTrees, hw]
    | cons v ws => simp [separatedTrees, hw, hleaf, ih hws]

theorem chars_separated (ws : List Written) :
    chars (separated ws) = [',', ' '].intercalate (ws.map fun w => chars w.tokens) := by
  induction ws with
  | nil => rfl
  | cons w ws ih =>
    cases ws with
    | nil => simp [separated]
    | cons v ws =>
      rw [List.map_cons] at ih
      simp [separated, ih, List.intercalate_cons_cons]

section Scans

variable {w : Written} {ws : List Written}

theorem head_separated (h : ∀ v ∈ w :: ws, Scanned v.tokens) (y : List Char) :
    (chars (separated (w :: ws)) ++ y).head?.any (!Token.isBlank ·) = true := by
  have hw := h w (by simp)
  cases ws with
  | nil => exact hw.head y
  | cons v ws =>
    rw [separated, chars_append, List.append_assoc]
    exact hw.head _

theorem scans_separated (h : ∀ w ∈ ws, Scanned w.tokens) {y : List Char}
    (hy : y.head?.any Digits.ends = true) :
    Scans (chars (separated ws) ++ y) (separated ws) y := by
  induction ws with
  | nil => exact .done y
  | cons w ws ih =>
    obtain ⟨hw, hws⟩ := List.forall_mem_cons.1 h
    cases ws with
    | nil => exact hw.scans y hy
    | cons v ws =>
      refine .join (hw.scans _ rfl) (.cons (Token.stands_loose (by decide) _) ?_)
      exact .cons (Token.stands_space (head_separated hws y)) (ih hws)

theorem scanned_separated (h : ∀ v ∈ w :: ws, Scanned v.tokens) :
    Scanned (separated (w :: ws)) :=
  ⟨head_separated h, fun _ => scans_separated h⟩

end Scans

def Passes (test : List Token → Bool) (w : Written) : Prop :=
  ∀ ⦃gap us : List Token⦄, (∀ g ∈ gap, g.isTrivia) →
    test (significant (gap ++ (w.tokens ++ us))) = true

def ReadBy (item : Act) (w : Written) : Prop :=
  ∀ ⦃gap rest : List Token⦄ ⦃f : Token⦄ ⦃xs : List Tree⦄, (∀ g ∈ gap, g.isTrivia) → f.EndsExpr →
    Leads body item xs (gap ++ (w.tokens ++ f :: rest)) (xs ++ gap.map .leaf ++ [w.tree])
      (f :: rest)

section Reading

variable {w : Written} {ws : List Written} {test : List Token → Bool} {item : Act} {close : Token}
  {rest : List Token} {xs : List Tree}

theorem append_separated (gap : List Token) (w v : Written) (ws : List Written)
    (rest : List Token) :
    gap ++ (separated (w :: v :: ws) ++ rest) =
      gap ++ (w.tokens ++ sign .comma :: ([space] ++ (separated (v :: ws) ++ rest))) := by
  simp [separated]

theorem append_separatedTrees (xs : List Tree) (w v : Written) (ws : List Written) :
    xs ++ separatedTrees (w :: v :: ws) =
      xs ++ [w.tree] ++ [.leaf (sign .comma)] ++ [space].map .leaf ++ separatedTrees (v :: ws) := by
  simp [separatedTrees]

theorem isTrivia_gap : ∀ g ∈ [space], g.isTrivia := by decide

theorem leads_separated {gap : List Token} (hgap : ∀ g ∈ gap, g.isTrivia)
    (hclose : close.EndsExpr) (hlast : close.kind ≠ .comma)
    (htest : ∀ v ∈ w :: ws, v.Passes test) (hitem : ∀ v ∈ w :: ws, v.ReadBy item) :
    Leads body (.commaList test item) xs (gap ++ (separated (w :: ws) ++ close :: rest))
      (xs ++ gap.map .leaf ++ separatedTrees (w :: ws)) (close :: rest) := by
  -- Behind the first piece, the gap is the space that follows the comma.
  induction ws generalizing w gap xs with
  | nil =>
    refine .commaLast (htest w (by simp) hgap) (hitem w (by simp) hgap hclose) ?_
    rw [significant_next hclose.isTrivia]
    simpa using hlast
  | cons v ws ih =>
    obtain ⟨hw, hws⟩ := List.forall_mem_cons.1 hitem
    obtain ⟨hpass, hpasses⟩ := List.forall_mem_cons.1 htest
    rw [append_separated, append_separatedTrees]
    exact .commaMore (hpass hgap) (hw hgap (Token.endsExpr_sign (by decide))) rfl
      (ih isTrivia_gap hpasses hws)

theorem leads_commaList (hclose : close.EndsExpr) (hlast : close.kind ≠ .comma)
    (hstop : ∀ ts, test (close :: ts) = false) (htest : ∀ w ∈ ws, w.Passes test)
    (hitem : ∀ w ∈ ws, w.ReadBy item) :
    Leads body (.commaList test item) xs (separated ws ++ close :: rest)
      (xs ++ separatedTrees ws) (close :: rest) := by
  cases ws with
  | nil =>
    have hstop : test (significant (close :: rest)) = false := by
      rw [significant_next hclose.isTrivia]
      exact hstop _
    rw [separatedTrees, List.append_nil]
    exact .commaStop hstop
  | cons w ws =>
    have h : Leads body (.commaList test item) xs ([] ++ (separated (w :: ws) ++ close :: rest))
        _ _ := leads_separated (by simp) hclose hlast htest hitem
    simpa using h

theorem leads_params {gap : List Token} (hgap : ∀ g ∈ gap, g.isTrivia)
    (htest : ∀ v ∈ w :: ws, v.Passes (before [.rParen]))
    (hitem : ∀ v ∈ w :: ws, v.ReadBy parameterOrMark) :
    Leads body (.repeatWhile (before [.rParen]) parameterOrMark) xs
      (gap ++ (separated (w :: ws) ++ sign .rParen :: rest))
      (xs ++ gap.map .leaf ++ separatedTrees (w :: ws)) (sign .rParen :: rest) := by
  have hclose : (sign .rParen).EndsExpr := Token.endsExpr_sign (by decide)
  -- The commas between parameters are read like parameters.
  induction ws generalizing w gap xs with
  | nil =>
    refine .repeatTurn (htest w (by simp) hgap) (hitem w (by simp) hgap hclose) ?_
    exact .repeatStop rfl
  | cons v ws ih =>
    obtain ⟨hw, hws⟩ := List.forall_mem_cons.1 hitem
    obtain ⟨hpass, hpasses⟩ := List.forall_mem_cons.1 htest
    have hcomma : Leads body parameterOrMark (xs ++ gap.map .leaf ++ [w.tree])
        (sign .comma :: ([space] ++ (separated (v :: ws) ++ sign .rParen :: rest))) _ _ :=
      .look (.take rfl)
    rw [append_separated, append_separatedTrees]
    exact .repeatTurn (hpass hgap) (hw hgap (Token.endsExpr_sign (by decide)))
      (.repeatTurn rfl hcomma (ih isTrivia_gap hpasses hws))

theorem leads_paramList (htest : ∀ w ∈ ws, w.Passes (before [.rParen]))
    (hitem : ∀ w ∈ ws, w.ReadBy parameterOrMark) :
    Leads body (.call .paramList) xs (sign .lParen :: (separated ws ++ sign .rParen :: rest))
      (xs ++ [.node .paramList
        (.leaf (sign .lParen) :: (separatedTrees ws ++ [.leaf (sign .rParen)]))]) rest := by
  have hparams : Leads body (.repeatWhile (before [.rParen]) parameterOrMark)
      [.leaf (sign .lParen)] (separated ws ++ sign .rParen :: rest)
      (.leaf (sign .lParen) :: separatedTrees ws) (sign .rParen :: rest) := by
    cases ws with
    | nil => exact .repeatStop rfl
    | cons w ws =>
      have h : Leads body _ [.leaf (sign .lParen)]
          ([] ++ (separated (w :: ws) ++ sign .rParen :: rest)) _ _ :=
        leads_params (by simp) htest hitem
      simpa using h
  exact .call (.node rfl (.andThen (reads_expect rfl rfl)
    (.andThen hparams (reads_expect rfl rfl))))

end Reading

def behind (gap : Token) (ws : List Written) : List Token := ws.flatMap (gap :: ·.tokens)

def treesBehind (gap : Token) (ws : List Written) : List Tree :=
  ws.flatMap fun w => [.leaf gap, w.tree]

theorem filter_treesBehind {p : Tree → Bool} (hleaf : ∀ t, p (.leaf t) = false) (gap : Token)
    {ws : List Written} (h : ∀ w ∈ ws, p w.tree = true) :
    (treesBehind gap ws).filter p = ws.map tree := by
  induction ws with
  | nil => rfl
  | cons w ws ih =>
    obtain ⟨hw, hws⟩ := List.forall_mem_cons.1 h
    rw [List.map_cons, ← ih hws]
    simp [treesBehind, hw, hleaf]

structure ReadAs (rule : Rule) (w : Written) : Prop where
  opens : ∃ t ts, w.tokens = t :: ts ∧ t.isTrivia = false ∧ t.kind ≠ .rBrace
  leads : ∀ ⦃gap : Token⦄ ⦃xs : List Tree⦄ ⦃rest : List Token⦄, gap.isTrivia = true →
    Leads body (.call rule) xs (gap :: (w.tokens ++ rest)) (xs ++ [.leaf gap, w.tree]) rest

def readUntilBrace (rule : Rule) (message : String) : Act :=
  .repeatWhile (before [.rBrace]) (.insist (.call rule) (skipGroup message))

section Braces

variable {gap : Token} {ws : List Written}

theorem scans_behind (hgap : ∀ y, y.head?.any (!Token.isBlank ·) = true → gap.Stands y)
    (h : ∀ w ∈ ws, Closed w.tokens) (y : List Char) :
    Scans (chars (behind gap ws) ++ y) (behind gap ws) y := by
  induction ws with
  | nil => exact .done y
  | cons w ws ih =>
    obtain ⟨hw, hws⟩ := List.forall_mem_cons.1 h
    have htokens : behind gap (w :: ws) = (gap :: w.tokens) ++ behind gap ws := rfl
    rw [htokens]
    exact .join (.cons (hgap _ (hw.head _)) (hw.scans _)) (ih hws)

variable {rule : Rule} {message : String} {close : Token} {xs : List Tree} {rest : List Token}

theorem leads_behind (hgap : gap.isTrivia = true) (hclose : close.isTrivia = true)
    (h : ∀ w ∈ ws, w.ReadAs rule) :
    Leads body (readUntilBrace rule message) xs
      (behind gap ws ++ close :: sign .rBrace :: rest) (xs ++ treesBehind gap ws)
      (close :: sign .rBrace :: rest) := by
  induction ws generalizing xs with
  | nil =>
    rw [treesBehind, List.flatMap_nil, List.append_nil]
    refine .repeatStop ?_
    rw [behind, List.flatMap_nil, List.nil_append, significant_after hclose rfl]
    rfl
  | cons w ws ih =>
    obtain ⟨hw, hws⟩ := List.forall_mem_cons.1 h
    obtain ⟨t, ts, htokens, ht, hkind⟩ := hw.opens
    have hmoved : (behind gap ws ++ close :: sign .rBrace :: rest).length ≠
        (gap :: (w.tokens ++ (behind gap ws ++ close :: sign .rBrace :: rest))).length := by
      simp
      omega
    have hahead : before [.rBrace] (significant (gap :: (w.tokens ++
        (behind gap ws ++ close :: sign .rBrace :: rest)))) = true := by
      rw [htokens, List.cons_append, significant_after hgap ht]
      simp [before_cons, hkind]
    have hturn : Leads body (readUntilBrace rule message) xs
        (gap :: (w.tokens ++ (behind gap ws ++ close :: sign .rBrace :: rest)))
        (xs ++ [.leaf gap, w.tree] ++ treesBehind gap ws) (close :: sign .rBrace :: rest) :=
      .repeatTurn hahead (.insist (hw.leads hgap) hmoved) (ih hws)
    simpa [behind, treesBehind] using hturn

end Braces

end Written

end CrossReference.Source
