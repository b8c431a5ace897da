import CrossReference.Proofs.Import.Edit
import CrossReference.Proofs.Printing.Expression
import CrossReference.Source.Form
import CrossReference.Source.Literal

namespace CrossReference

namespace Text

open Source.Token (isWordStart isWordChar)

theorem inRanges_letter {c : Char} (h : c.isAlpha = true) :
    inRanges c.toNat startRanges = true := by
  obtain ⟨rest, hranges⟩ : ∃ rest, startRanges = (65, 90) :: (97, 122) :: rest := ⟨_, rfl⟩
  have hletter := Source.Token.toNat_of_isAlpha h
  rw [hranges]
  simp only [inRanges]
  grind

theorem isIdentifierStart_of_isWordStart {c : Char} (h : isWordStart c = true) :
    isIdentifierStart c = true := by
  simp only [isWordStart, Bool.or_eq_true, beq_iff_eq] at h
  rcases h with (h | h) | h
  · simp [isIdentifierStart, inRanges_letter h]
  · simp [isIdentifierStart, h]
  · simp [isIdentifierStart, h]

theorem isIdentifierContinue_of_isWordChar {c : Char} (h : isWordChar c = true) :
    isIdentifierContinue c = true := by
  obtain ⟨rest, hranges⟩ : ∃ rest, continueRanges = (48, 57) :: rest := ⟨_, rfl⟩
  simp only [isWordChar, isWordStart, Bool.or_eq_true, beq_iff_eq] at h
  rcases h with ((h | rfl) | rfl) | h
  · simp [isIdentifierContinue, inRanges_letter h]
  · rfl
  · rfl
  · have hdigit : 48 ≤ c.toNat ∧ c.toNat ≤ 57 := by
      simpa [Char.isDigit, UInt32.le_iff_toNat_le] using h
    have hin : inRanges c.toNat continueRanges = true := by
      simp [hranges, inRanges, Nat.not_lt.2 hdigit.1, hdigit.2]
    simp [isIdentifierContinue, hin]

end Text

namespace Source

@[simp] theorem Word.isIdentifier (w : Word) : Text.isIdentifier w.1 = true := by
  obtain ⟨c, x, htext, hc, hx⟩ := w.letters
  have hrest : ∀ a ∈ x, Text.isIdentifierContinue a = true := fun a ha =>
    Text.isIdentifierContinue_of_isWordChar (hx a ha)
  simpa [Text.isIdentifier, htext, Text.isIdentifierStart_of_isWordStart hc] using hrest

def Tree.isExpr : Tree → Bool
  | .node kind _ => kind.isExpr
  | .leaf _ => false

namespace Tree

@[simp] theorem isExpr_node (kind : NodeKind) (ts : List Tree) :
    (node kind ts).isExpr = kind.isExpr := rfl

@[simp] theorem isExpr_leaf (t : Token) : (leaf t).isExpr = false := rfl

@[simp] theorem isNode_node (kind : NodeKind) (ts : List Tree) : (node kind ts).isNode = true := rfl

@[simp] theorem isNode_leaf (t : Token) : (leaf t).isNode = false := rfl

theorem isNode_of_isExpr {t : Tree} (h : t.isExpr = true) : t.isNode = true := by
  cases t with
  | node kind ts => rfl
  | leaf t => cases h

end Tree

@[simp] theorem Chain.isExpr_tree (c : Chain) : c.tree.isExpr = true := by
  cases c with
  | name w => rfl
  | member object w => simp [Chain.tree, NodeKind.isExpr]
  | call callee args => simp [Chain.tree, NodeKind.isExpr]

@[simp] theorem Expr.isExpr_tree (e : Expr) : e.tree.isExpr = true := by
  cases e with
  | text value => rfl
  | strings first more => rfl
  | number value => rfl
  | chain value => exact value.isExpr_tree
  | list elements => simp [Expr.tree, NodeKind.isExpr]
  | closure value => simp [Expr.tree, NodeKind.isExpr]

@[simp] theorem Chain.isNode_tree (c : Chain) : c.tree.isNode = true :=
  Tree.isNode_of_isExpr c.isExpr_tree

@[simp] theorem Expr.isNode_tree (e : Expr) : e.tree.isNode = true :=
  Tree.isNode_of_isExpr e.isExpr_tree

theorem Expr.filter_treesAll (es : List Expr) :
    (treesAll es).filter Tree.isExpr = es.map tree := by
  have hall : ∀ w ∈ es.map written, w.tree.isExpr = true :=
    List.forall_mem_map.2 fun e _ => e.isExpr_tree
  rw [treesAll_eq, Written.filter_separatedTrees Tree.isExpr_leaf hall, List.map_map]
  rfl

namespace Node

variable {n : Node} {kind : NodeKind} {ts : List Tree}

theorem kind_of_tree (h : n.tree = .node kind ts) : n.kind = kind := (Tree.node.inj h).1

theorem tokens_of_tree (h : n.tree = .node kind ts) : n.tokens = ts.filterMap Tree.token? := by
  rw [tokens, (Tree.node.inj h).2]

theorem map_tree_children (h : n.tree = .node kind ts) :
    n.children.map tree = ts.filter Tree.isNode := by
  rw [children, map_tree_childrenFrom, (Tree.node.inj h).2]

theorem map_tree_exprs (h : n.tree = .node kind ts) :
    n.exprs.map tree = ts.filter Tree.isExpr := by
  have hexprs : n.exprs = n.children.filter (Tree.isExpr ∘ tree) := rfl
  have hnode : ∀ t : Tree, (t.isExpr && t.isNode) = t.isExpr := by
    intro t
    cases t <;> simp [Tree.isExpr, Tree.isNode]
  rw [hexprs, ← List.filter_map, map_tree_children h, List.filter_filter]
  simp [hnode]

theorem exists_firstExpr {e : Expr} (h : n.tree = .node kind ts)
    (hts : ts.filter Tree.isExpr = [e.tree]) :
    ∃ v ∈ n.children, n.firstExpr? = some v ∧ v.tree = e.tree := by
  obtain ⟨v, hexprs, hv⟩ := List.map_eq_singleton_iff.1 ((map_tree_exprs h).trans hts)
  have hmem : v ∈ n.exprs := by simp [hexprs]
  exact ⟨v, (List.mem_filter.1 hmem).1, by simp [firstExpr?, hexprs], hv⟩

theorem exists_pair {ns : List Node} {t u : Tree} (h : ns.map tree = [t, u]) :
    ∃ a b, ns = [a, b] ∧ a.tree = t ∧ b.tree = u := by
  obtain ⟨a, rest, rfl, ha, h⟩ := List.map_eq_cons_iff.1 h
  obtain ⟨b, rfl, hb⟩ := List.map_eq_singleton_iff.1 h
  exact ⟨a, b, rfl, ha, hb⟩

theorem chain?_member {object member : Node} (hkind : n.kind = .memberExpr)
    (hexprs : n.exprs = [object, member]) (hmember : member.kind = .nameRef) :
    n.chain? = object.chain?.bind fun segments => member.refSegment?.map (segments ++ [·]) := by
  rw [chain?]
  simp only [hkind]
  split
  · next receiver second rest h =>
    obtain ⟨rfl, rfl, rfl⟩ : object = receiver ∧ member = second ∧ [] = rest := by
      simpa [hexprs] using h
    simp only [hmember, if_true]
    cases object.chain? <;> cases member.refSegment? <;> rfl
  · next h => exact absurd hexprs (h _ _ _)

theorem chain?_call {callee : Node} (hkind : n.kind = .callExpr) (hexprs : n.exprs = [callee])
    (hcallee : callee.kind = .nameRef ∨ callee.kind = .memberExpr) :
    n.chain? = callee.chain?.bind (callLast? n) := by
  rw [chain?]
  simp only [hkind]
  split
  · next first rest h =>
    obtain ⟨rfl, rfl⟩ : callee = first ∧ [] = rest := by simpa [hexprs] using h
    simp [hcallee]
  · next h => simp [hexprs] at h

end Node

namespace Node

variable {n : Node} {c : Chain} {w : Word}

theorem refName?_word (h : n.tree = w.tree) : n.refName? = some w.1 := by
  have hkind := kind_of_tree h
  have htokens := tokens_of_tree h
  simp [refName?, hkind, htokens, Tree.token?, Token.isTrivia, TokenKind.isTrivia]

theorem refSegment?_word (h : n.tree = w.tree) : n.refSegment? = some ⟨w.1, n, none⟩ := by
  simp [refSegment?, refName?_word h]

theorem chain?_word (h : n.tree = w.tree) : n.chain? = some [⟨w.1, n, none⟩] := by
  rw [chain?, kind_of_tree h]
  simp [refSegment?_word h]

theorem exists_object (h : n.tree = (Chain.member c w).tree) :
    ∃ object ref : Node, n.children = [object, ref] ∧ n.exprs = [object, ref] ∧
      object.tree = c.tree ∧ ref.tree = w.tree ∧
      n.chain? = object.chain?.map (· ++ [⟨w.1, ref, none⟩]) := by
  have htrees : n.children.map tree = [c.tree, w.tree] := by
    rw [map_tree_children h]
    simp [Word.tree, List.filter_cons]
  obtain ⟨object, ref, hchildren, hobject, href⟩ := exists_pair htrees
  have hobjectExpr : object.kind.isExpr = true :=
    (congrArg Tree.isExpr hobject).trans c.isExpr_tree
  have hrefExpr : ref.kind.isExpr = true := by
    rw [kind_of_tree href]
    rfl
  have hexprs : n.exprs = [object, ref] := by simp [exprs, hchildren, hobjectExpr, hrefExpr]
  refine ⟨object, ref, hchildren, hexprs, hobject, href, ?_⟩
  rw [chain?_member (kind_of_tree h) hexprs (kind_of_tree href), refSegment?_word href]
  cases object.chain? <;> rfl

theorem callLast?_append (call : Node) (before : List Segment) (name : String) (ref : Node) :
    callLast? call (before ++ [⟨name, ref, none⟩]) = some (before ++ [⟨name, ref, some call⟩]) := by
  induction before with
  | nil => rfl
  | cons s rest ih =>
    rw [List.cons_append, callLast?, ih]
    · rfl
    · simp

end Node

def Chain.isCall : Chain → Bool
  | .call _ _ => true
  | _ => false

theorem Node.exists_callee {n : Node} {c : Chain} {args : List Expr}
    (h : n.tree = (Chain.call c args).tree) (hcall : c.isCall = false) :
    ∃ callee : Node, callee.tree = c.tree ∧ n.chain? = callee.chain?.bind (callLast? n) := by
  have htrees : n.exprs.map tree = [c.tree] := by
    rw [map_tree_exprs h]
    simp [NodeKind.isExpr]
  obtain ⟨callee, hexprs, hcallee⟩ := List.map_eq_singleton_iff.1 htrees
  have hkind : callee.kind = .nameRef ∨ callee.kind = .memberExpr := by
    cases c with
    | name w => exact .inl (kind_of_tree hcallee)
    | member object w => exact .inr (kind_of_tree hcallee)
    | call callee args => cases hcall
  exact ⟨callee, hcallee, chain?_call (kind_of_tree h) hexprs hkind⟩

def Chain.Spells (c : Chain) (parts : List (String × Bool)) : Prop :=
  ∀ n : Node, n.tree = c.tree →
    ∃ segments, n.chain? = some segments ∧
      segments.map (fun s => (s.name, s.call.isSome)) = parts

namespace Chain

variable {c : Chain} {parts : List (String × Bool)}

theorem Spells.name (w : Word) : (Chain.name w).Spells [(w.1, false)] := fun n hn =>
  ⟨[⟨w.1, n, none⟩], Node.chain?_word hn, rfl⟩

theorem Spells.member (h : c.Spells parts) (w : Word) :
    (Chain.member c w).Spells (parts ++ [(w.1, false)]) := by
  intro n hn
  obtain ⟨object, ref, -, -, hobject, -, hmember⟩ := Node.exists_object hn
  obtain ⟨segments, hchain, hparts⟩ := h object hobject
  exact ⟨segments ++ [⟨w.1, ref, none⟩], by simp [hmember, hchain], by simp [hparts]⟩

theorem Spells.call {name : String} (h : c.Spells (parts ++ [(name, false)]))
    (hcall : c.isCall = false) (args : List Expr) :
    (Chain.call c args).Spells (parts ++ [(name, true)]) := by
  intro n hn
  obtain ⟨callee, hcallee, hchain⟩ := Node.exists_callee hn hcall
  obtain ⟨segments, hsegments, hparts⟩ := h callee hcallee
  obtain ⟨before, last, rfl, hbefore, hlast⟩ := List.map_eq_append_iff.1 hparts
  obtain ⟨⟨last, ref, called⟩, rfl, hs⟩ := List.map_eq_singleton_iff.1 hlast
  obtain ⟨rfl, rfl⟩ : last = name ∧ called = none := by simpa using hs
  refine ⟨before ++ [⟨last, ref, some n⟩], ?_, by simp [hbefore]⟩
  rw [hchain, hsegments]
  exact Node.callLast?_append n before last ref

end Chain

namespace Node

variable {n : Node}

theorem exists_argList {c : Chain} {args : List Expr} (h : n.tree = (Chain.call c args).tree) :
    ∃ callee list, n.children = [callee, list] ∧ callee.tree = c.tree ∧
      list.exprs.map tree = args.map Expr.tree ∧
      n.callArgs? = if list.exprs.isEmpty then none else some list.exprs := by
  have htrees : n.children.map tree =
      [c.tree, .node .argList
        (.leaf (.sign .lParen) :: (Expr.treesAll args ++ [.leaf (.sign .rParen)]))] := by
    rw [map_tree_children h]
    simp
  obtain ⟨callee, list, hchildren, hcallee, hlist⟩ := exists_pair htrees
  have hother : callee.kind ≠ .argList := by
    intro hkind
    have hexpr : callee.kind.isExpr = true :=
      (congrArg Tree.isExpr hcallee).trans c.isExpr_tree
    rw [hkind] at hexpr
    cases hexpr
  have hargs : n.child? .argList = some list := by
    simp [child?, hchildren, hother, kind_of_tree hlist]
  refine ⟨callee, list, hchildren, hcallee, ?_, ?_⟩
  · rw [map_tree_exprs hlist]
    simp [Expr.filter_treesAll]
  · have hcall : n.callOf? = some n := by
      simp [callOf?, underNew?, kind_of_tree h, Option.filter]
    simp [callArgs?, hcall, hargs]

theorem map_tree_callArgs? {c : Chain} {args : List Expr}
    (h : n.tree = (Chain.call c args).tree) :
    (n.callArgs?.getD []).map tree = args.map Expr.tree := by
  obtain ⟨_, list, -, -, htrees, hargs⟩ := exists_argList h
  rw [hargs]
  split
  · next hempty =>
    rw [← htrees, List.isEmpty_iff.1 hempty]
    rfl
  · exact htrees

theorem stringValue?_text {value : Quoted} (h : n.tree = (Expr.text value).tree) :
    n.stringValue? = some value.1 := by
  have htokens := tokens_of_tree h
  simp [stringValue?, kind_of_tree h, htokens, Tree.token?, value.unquote?_token]

end Node

end Source

end CrossReference
