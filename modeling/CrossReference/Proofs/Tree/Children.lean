import CrossReference.Proofs.Reading.Shape
import CrossReference.Proofs.Tree.Within

namespace CrossReference.Source

open Grammar Step

namespace Node

structure WellShaped (n : Node) : Prop where
  nameRef : n.kind = .nameRef →
    ∃ word, n.here.children = [.leaf word] ∧ word.kind ∈ [.ident, .thisKw, .superKw]
  memberExpr : n.kind = .memberExpr →
    ∃ object member, n.children = [object, member] ∧ object.kind.isExpr = true ∧
      member.kind = .nameRef
  callExpr : n.kind = .callExpr →
    ∃ callee, n.children.head? = some callee ∧ n.exprs = [callee] ∧
      (n.childrenOf .argList).length = 1
  stringLiteral : n.kind = .stringLiteral →
    n.children = [] ∧ (∃ t ∈ n.tokens, t.kind = .string) ∧
      ∀ t ∈ n.tokens, t.kind = .string ∨ t.isTrivia = true
  declarator : n.kind = .declarator →
    (∃ p, n.parent? = some p ∧ p.kind ∈ [.fieldDecl, .topLevelVar, .localVar]) ∧
      (n.childrenOf .name).length ≤ 1 ∧ n.exprs.length ≤ 1
  param : n.kind = .param → ∃ p, n.parent? = some p ∧ p.kind = .paramList
  classDecl : n.kind = .classDecl →
    (∃ p, n.parent? = some p ∧ p.kind = .sourceFile) ∧
      (n.childrenOf .name).length ≤ 1 ∧ (n.childrenOf .classBody).length ≤ 1
  member : n.kind ∈ [.methodDecl, .fieldDecl, .constructorDecl] →
    ∃ p, n.parent? = some p ∧ p.kind = .classBody

variable {root n c : Node} {t : Token}

theorem map_kind_childrenFrom (above : List Level) (start index : Nat) (ts : List Tree) :
    (childrenFrom above start index ts).map kind = nodes (Tree.parts ts) := by
  induction ts generalizing start index with
  | nil => rfl
  | cons t ts ih =>
    cases t with
    | node kind children => exact congrArg (kind :: ·) (ih _ _)
    | leaf token =>
      rw [childrenFrom, ih]
      by_cases ht : token.isTrivia = true <;> simp [Tree.parts, Tree.part?, ht]

def childKinds (n : Node) : List NodeKind := nodes (Tree.parts n.here.children)

theorem map_kind_children (n : Node) : n.children.map kind = n.childKinds :=
  map_kind_childrenFrom ..

theorem length_childrenOf (kind : NodeKind) (n : Node) :
    (n.childrenOf kind).length = n.childKinds.count kind := by
  rw [← map_kind_children, childrenOf, ← List.countP_eq_length_filter, List.count,
    List.countP_map]
  rfl

theorem length_exprs (n : Node) : n.exprs.length = n.childKinds.countP NodeKind.isExpr := by
  rw [← map_kind_children, exprs, ← List.countP_eq_length_filter, List.countP_map]
  rfl

namespace Within

theorem shaped {ρ : Type} {shaping : Shaping ρ} (h : Within root n)
    (hroot : root.tree.Shaped shaping) : n.tree.Shaped shaping := by
  induction h with
  | root => exact hroot
  | child _ hc ih => exact Tree.shapedAll_iff.1 ih.2 _ (tree_mem_of_mem_children hc)

theorem holds (h : Within root n) (hroot : root.tree.Shaped shaping)
    (hkind : n.kind ≠ root.kind) : ∃ p, n.parent? = some p ∧ p.kind.holds n.kind = true := by
  cases h with
  | root => exact absurd rfl hkind
  | @child p _ hp hc =>
    refine ⟨p, parent?_of_mem_children hc, ?_⟩
    have hunder := allOf_under_iff.1 (hp.shaped hroot).1.1
    refine hunder n.kind ?_
    change n.kind ∈ p.childKinds
    rw [← map_kind_children]
    exact List.mem_map_of_mem hc

end Within

theorem member_of_counted (h : counted .memberExpr (Tree.parts n.here.children)) :
    ∃ object member, n.children = [object, member] ∧ object.kind.isExpr = true ∧
      member.kind = .nameRef := by
  obtain ⟨e, he, hkinds⟩ := h
  have hmap : n.children.map kind = [e, .nameRef] := (map_kind_children n).trans hkinds
  obtain ⟨object, rest, hchildren, rfl, hrest⟩ := List.map_eq_cons_iff.1 hmap
  obtain ⟨member, rfl, hmember⟩ := List.map_eq_singleton_iff.1 hrest
  exact ⟨object, member, hchildren, he, hmember⟩

theorem call_of_counted (h : counted .callExpr (Tree.parts n.here.children)) :
    ∃ callee, n.children.head? = some callee ∧ n.exprs = [callee] ∧
      (n.childrenOf .argList).length = 1 := by
  obtain ⟨e, he, hparts⟩ := h
  obtain ⟨kinds, hsplit, hcount, hothers⟩ : ∃ kinds, n.childKinds = e :: kinds ∧
      kinds.count .argList = 1 ∧ ∀ kind ∈ kinds, kind.isExpr = false := by
    rcases hparts with hparts | hparts
    · exact ⟨[.argList], congrArg nodes hparts, by decide, by decide⟩
    · exact ⟨[.typeArgs, .argList], congrArg nodes hparts, by decide, by decide⟩
  have hmap := map_kind_children n
  rw [hsplit] at hmap
  obtain ⟨callee, rest, hchildren, rfl, rfl⟩ := List.map_eq_cons_iff.1 hmap
  have hargs : callee.kind ≠ .argList := by
    intro hkind
    rw [hkind] at he
    cases he
  have hrest : rest.filter (·.kind.isExpr) = [] := by
    rw [List.filter_eq_nil_iff]
    intro c hc
    simp [hothers c.kind (List.mem_map_of_mem hc)]
  refine ⟨callee, by simp [hchildren], ?_, ?_⟩
  · rw [exprs, hchildren, List.filter_cons, if_pos he, hrest]
  · rw [length_childrenOf, hsplit, List.count_cons_of_ne hargs, hcount]

theorem mem_tokens_tree (h : t ∈ n.tokens) : t ∈ n.tree.tokens := by
  obtain ⟨leaf, hleaf, htoken⟩ := List.mem_filterMap.1 h
  obtain ⟨before, after, hsplit⟩ := List.append_of_mem hleaf
  cases leaf with
  | node => cases htoken
  | leaf u =>
    obtain rfl : u = t := Option.some.inj htoken
    rw [tree, Tree.tokens, hsplit]
    simp [Tree.tokensAll, Tree.tokens]

theorem Within.mem_scan {text : String} (h : (parse text).root.Within n) (ht : t ∈ n.tokens) :
    t ∈ Token.scan text := by
  obtain ⟨before, after, htokens, -⟩ := h.slice
  rw [← tokens_root_parse, htokens]
  simp [mem_tokens_tree ht]

theorem part_of_mem_tokens (h : t ∈ n.tokens) (ht : t.isTrivia = false) :
    .token t.kind ∈ Tree.parts n.here.children := by
  obtain ⟨tree, htree, htoken⟩ := List.mem_filterMap.1 h
  cases tree with
  | node => cases htoken
  | leaf u =>
    cases htoken
    exact List.mem_filterMap.2 ⟨.leaf t, htree, by simp [Tree.part?, ht]⟩

theorem token_of_mem_parts {kind : TokenKind} (h : .token kind ∈ Tree.parts n.here.children) :
    ∃ t ∈ n.tokens, t.kind = kind := by
  obtain ⟨tree, htree, hpart⟩ := List.mem_filterMap.1 h
  cases tree with
  | node => cases hpart
  | leaf t =>
    refine ⟨t, List.mem_filterMap.2 ⟨.leaf t, htree, rfl⟩, ?_⟩
    rw [Tree.part?] at hpart
    split at hpart <;> cases hpart
    rfl

theorem string_of_counted (h : counted .stringLiteral (Tree.parts n.here.children)) :
    n.children = [] ∧ (∃ t ∈ n.tokens, t.kind = .string) ∧
      ∀ t ∈ n.tokens, t.kind = .string ∨ t.isTrivia = true := by
  obtain ⟨hne, hall⟩ := h
  refine ⟨?_, ?_, fun t ht => ?_⟩
  · rw [← List.map_eq_nil_iff (f := kind), map_kind_children, childKinds, nodes,
      List.filterMap_eq_nil_iff]
    intro p hp
    rw [hall p hp]
    rfl
  · obtain ⟨p, ps, hparts⟩ := List.exists_cons_of_ne_nil hne
    have hp : p ∈ Tree.parts n.here.children := by simp [hparts]
    rw [hall p hp] at hp
    exact token_of_mem_parts hp
  · cases htrivia : t.isTrivia with
    | true => exact .inr rfl
    | false => exact .inl (Part.token.inj (hall _ (part_of_mem_tokens ht htrivia)))

theorem Within.wellShaped {text : String} (h : (parse text).root.Within n) : n.WellShaped := by
  have hroot := Parse.shaped_tree (Token.scan text)
  have hcounted : counted n.kind (Tree.parts n.here.children) := (h.shaped hroot).1.2
  have hregular := h.regular (Parse.regular_tree (Token.scan text))
  have hplace (hkind : n.kind ≠ .sourceFile) := h.holds hroot hkind
  constructor
  · exact hregular.1.1
  · intro hkind
    rw [hkind] at hcounted
    exact member_of_counted hcounted
  · intro hkind
    rw [hkind] at hcounted
    exact call_of_counted hcounted
  · intro hkind
    rw [hkind] at hcounted
    exact string_of_counted hcounted
  · intro hkind
    rw [hkind] at hcounted hplace
    rw [length_childrenOf, length_exprs]
    obtain ⟨p, hp, hholds⟩ := hplace (by decide)
    refine ⟨⟨p, hp, ?_⟩, hcounted⟩
    simpa [NodeKind.holds, or_assoc] using hholds
  · intro hkind
    rw [hkind] at hplace
    obtain ⟨p, hp, hholds⟩ := hplace (by decide)
    exact ⟨p, hp, beq_iff_eq.1 hholds⟩
  · intro hkind
    rw [hkind] at hcounted hplace
    rw [length_childrenOf, length_childrenOf]
    obtain ⟨p, hp, hholds⟩ := hplace (by decide)
    exact ⟨⟨p, hp, beq_iff_eq.1 hholds⟩, hcounted⟩
  · intro hkind
    have hkind : n.kind = .methodDecl ∨ n.kind = .fieldDecl ∨ n.kind = .constructorDecl := by
      simpa using hkind
    rcases hkind with hkind | hkind | hkind
    all_goals
      rw [hkind] at hplace
      obtain ⟨p, hp, hholds⟩ := hplace (by decide)
      exact ⟨p, hp, beq_iff_eq.1 hholds⟩

theorem WellShaped.children_of_nameRef (h : n.WellShaped) (hkind : n.kind = .nameRef) :
    n.children = [] := by
  obtain ⟨word, hchildren, _⟩ := h.nameRef hkind
  rw [children, hchildren, childrenFrom, childrenFrom]

theorem Within.start_lt_stop {text : String} (h : (parse text).root.Within n)
    (hkind : n.kind = .nameRef) : n.start < n.stop := by
  obtain ⟨word, hchildren, _⟩ := h.wellShaped.nameRef hkind
  have hword : word ∈ Token.scan text := h.mem_scan (by simp [tokens, hchildren, Tree.token?])
  have hsize := Token.size_pos ((Token.scans_scanChars text.toList).text_ne_empty word hword)
  rw [stop, hchildren, Tree.sizeAll, Tree.size]
  omega

end Node

theorem parse_wellShaped (text : String) :
    ∀ n ∈ (parse text).root.descendants, n.WellShaped := by
  intro n hn
  exact (Node.mem_descendants_iff.1 hn).wellShaped

theorem parse_wellShaped_unclosed :
    ∃ n ∈ (parse r"class A { x = s.f('a' ..b").root.descendants,
      n.kind = .callExpr ∧ n.WellShaped := by
  have hsome :
      (parse r"class A { x = s.f('a' ..b").root.descendants.any (·.kind == .callExpr) := by
    decide +kernel
  obtain ⟨n, hn, hkind⟩ := List.any_eq_true.1 hsome
  exact ⟨n, hn, beq_iff_eq.1 hkind, parse_wellShaped _ n hn⟩

end CrossReference.Source
