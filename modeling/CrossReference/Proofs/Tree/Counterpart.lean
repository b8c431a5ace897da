import CrossReference.Proofs.Import.Edit
import CrossReference.Proofs.Tree.Spread
import CrossReference.Proofs.Tree.Within
import CrossReference.Symbols.Resolution

/-!
A tree before and after import lines came in among its items. Each node has a counterpart: it may
start elsewhere, but it has the same name, and what stands below and around it are counterparts
again.
-/

namespace CrossReference.Source.Node

def Widens (old new : List Tree) : Prop :=
  Spread Eq (fun t => ∃ uri, t = Import.lineTree uri) old new

def IsLine (n : Node) : Prop := ∃ uri, n.tree = Import.lineTree uri

/-- The items of a file may have moved among their siblings; below them every node keeps its
place. -/
inductive Counterpart : Node → Node → Prop
  | root {r r' : Level} : r.kind = .sourceFile → r'.kind = .sourceFile →
      Widens (r.children.filter Tree.isNode) (r'.children.filter Tree.isNode) →
      Counterpart ⟨r, []⟩ ⟨r', []⟩
  | child {n n' : Node} {l l' : Level} : Counterpart n n' → l.kind = l'.kind →
      l.children = l'.children → (n.kind ≠ .sourceFile → l.index = l'.index) →
      Counterpart ⟨l, n.here :: n.above⟩ ⟨l', n'.here :: n'.above⟩

theorem IsLine.kind {n : Node} (h : n.IsLine) : n.kind = .importDirective := by
  obtain ⟨uri, h⟩ := h
  exact (Tree.node.inj h).1

theorem forall₂_childrenFrom (above above' : List Level) (start start' index : Nat)
    (ts : List Tree) :
    List.Forall₂ (fun c c' => c.tree = c'.tree ∧ c.here.index = c'.here.index ∧
        c.above = above ∧ c'.above = above')
      (childrenFrom above start index ts) (childrenFrom above' start' index ts) := by
  induction ts generalizing start start' index with
  | nil => exact .nil
  | cons t ts ih =>
    cases t with
    | leaf token => exact ih _ _ _
    | node kind children => exact .cons ⟨rfl, rfl, rfl, rfl⟩ (ih _ _ _)

theorem isSame_of_above {m n : Node} (h : m.above = n.above) :
    m.isSame n = (m.here.index == n.here.index) := by
  simp [isSame, path, h]

namespace Counterpart

variable {n n' : Node}

theorem of_tree {c c' : Node} (h : Counterpart n n') (hc : c.above = n.here :: n.above)
    (hc' : c'.above = n'.here :: n'.above) (htree : c.tree = c'.tree)
    (hindex : n.kind ≠ .sourceFile → c.here.index = c'.here.index) : Counterpart c c' := by
  obtain ⟨l, above⟩ := c
  obtain ⟨l', above'⟩ := c'
  obtain ⟨hkind, hchildren⟩ := Tree.node.inj htree
  cases hc
  cases hc'
  exact .child h hkind hchildren hindex

theorem kind (h : Counterpart n n') : n.kind = n'.kind := by
  cases h with
  | root hr hr' _ => exact hr.trans hr'.symm
  | child _ hkind _ _ => exact hkind

theorem tree (h : Counterpart n n') (hn : n.kind ≠ .sourceFile) : n.tree = n'.tree := by
  cases h with
  | root hr _ _ => exact absurd hr hn
  | child _ hkind hchildren _ => exact congrArg₂ Tree.node hkind hchildren

theorem tokens (h : Counterpart n n') (hn : n.kind ≠ .sourceFile) : n.tokens = n'.tokens := by
  have hchildren : n.here.children = n'.here.children := (Tree.node.inj (h.tree hn)).2
  rw [Node.tokens, Node.tokens, hchildren]

theorem children (h : Counterpart n n') : Spread Counterpart IsLine n.children n'.children := by
  cases h with
  | root hr hr' hwidens =>
    have hspread := hwidens
    rw [← map_tree_childrenFrom, ← map_tree_childrenFrom] at hspread
    apply hspread.of_map
    · intro c hc c' hc' htree
      apply of_tree (.root hr hr' hwidens) (above_of_mem_children hc) (above_of_mem_children hc')
        htree
      exact fun hn => absurd hr hn
    · intro c _ hline
      exact hline
  | @child m m' l l' hm hkind hchildren hindex =>
    have hpairs := forall₂_childrenFrom (l :: m.here :: m.above) (l' :: m'.here :: m'.above)
      l.start l'.start 0 l.children
    rw [Node.children, Node.children, ← hchildren]
    apply Spread.of_forall₂
    apply hpairs.imp
    rintro c c' ⟨htree, hplace, habove, habove'⟩
    exact of_tree (.child hm hkind hchildren hindex) habove habove' htree fun _ => hplace

theorem strictAncestors (h : Counterpart n n') :
    List.Forall₂ Counterpart n.strictAncestors n'.strictAncestors := by
  induction h with
  | root => exact .nil
  | child hn _ _ _ ih => exact .cons hn ih

theorem ancestors (h : Counterpart n n') : List.Forall₂ Counterpart n.ancestors n'.ancestors :=
  .cons h h.strictAncestors

theorem parent? (h : Counterpart n n') : Option.Rel Counterpart n.parent? n'.parent? := by
  cases h with
  | root => exact .none
  | child hn _ _ _ => exact .some hn

theorem parent?_cases (h : Counterpart n n') :
    n.parent? = none ∧ n'.parent? = none ∨
      ∃ p p', n.parent? = some p ∧ n'.parent? = some p' ∧ Counterpart p p' := by
  cases h with
  | root => exact .inl ⟨rfl, rfl⟩
  | child hn _ _ _ => exact .inr ⟨_, _, rfl, rfl, hn⟩

theorem index {p : Node} (h : Counterpart n n') (hp : n.parent? = some p)
    (hkind : p.kind ≠ .sourceFile) : n.here.index = n'.here.index := by
  cases h with
  | root => cases hp
  | child _ _ _ hindex =>
    cases hp
    exact hindex hkind

section Below

variable {kind : NodeKind}

theorem childrenOf (h : Counterpart n n') (hkind : kind ≠ .importDirective) :
    List.Forall₂ Counterpart (n.childrenOf kind) (n'.childrenOf kind) := by
  apply h.children.filter
  · intro c c' hc
    rw [hc.kind]
  · intro c hc
    rw [hc.kind]
    exact beq_false_of_ne hkind.symm

theorem child? (h : Counterpart n n') (hkind : kind ≠ .importDirective) :
    Option.Rel Counterpart (n.child? kind) (n'.child? kind) := by
  rw [Node.child?, Node.child?, ← List.head?_filter, ← List.head?_filter]
  exact rel_head? (h.childrenOf hkind)

theorem firstExpr? (h : Counterpart n n') :
    Option.Rel Counterpart n.firstExpr? n'.firstExpr? := by
  apply rel_head?
  apply h.children.filter
  · intro c c' hc
    rw [hc.kind]
  · intro c hc
    rw [hc.kind]
    rfl

theorem trailingRef? (h : Counterpart n n') :
    Option.Rel Counterpart n.trailingRef? n'.trailingRef? :=
  rel_getLast? (h.childrenOf NodeKind.noConfusion)

theorem childWord (h : Counterpart n n') (hkind : kind ≠ .importDirective)
    (hroot : kind ≠ .sourceFile) :
    (n.child? kind).bind firstWord? = (n'.child? kind).bind firstWord? := by
  apply bind_eq_of_rel (h.child? hkind)
  intro c c' hc _ hcc
  have hname : c.kind = kind := (mem_children_of_child? hc).2
  rw [firstWord?, firstWord?, hcc.tokens (hname ▸ hroot)]

end Below

theorem declName? (h : Counterpart n n') : n.declName? = n'.declName? := by
  rw [Node.declName?, Node.declName?, h.kind,
    h.childWord NodeKind.noConfusion NodeKind.noConfusion]

theorem isNamed (h : Counterpart n n') (name : String) : n.isNamed name = n'.isNamed name := by
  rw [Node.isNamed, Node.isNamed, h.declName?]

theorem refName? (h : Counterpart n n') : n.refName? = n'.refName? := by
  rw [Node.refName?, Node.refName?, ← h.kind]
  split
  · next hkind => rw [h.tokens (hkind ▸ NodeKind.noConfusion)]
  · rfl

theorem declaredType? (h : Counterpart n n') : n.declaredType? = n'.declaredType? := by
  unfold Node.declaredType?
  rw [← h.kind]
  split
  · apply bind_eq_of_rel h.parent?
    intro holder holder' _ _ hh
    exact hh.childWord NodeKind.noConfusion NodeKind.noConfusion
  · exact h.childWord NodeKind.noConfusion NodeKind.noConfusion

section Scopes

theorem topLevelDecls (h : Counterpart n n') :
    List.Forall₂ Counterpart n.topLevelDecls n'.topLevelDecls := by
  apply h.children.flatMap
  · intro item item' hitem
    rw [← hitem.kind]
    split
    · exact hitem.childrenOf NodeKind.noConfusion
    · exact .cons hitem .nil
    · exact .cons hitem .nil
    · exact .cons hitem .nil
    · exact .nil
  · intro item hitem
    rw [hitem.kind]

theorem blockDecls (h : Counterpart n n') :
    List.Forall₂ Counterpart n.blockDecls n'.blockDecls := by
  apply h.children.flatMap
  · intro stmt stmt' hstmt
    rw [← hstmt.kind]
    split
    · exact hstmt.childrenOf NodeKind.noConfusion
    · exact .cons hstmt .nil
    · exact .nil
  · intro stmt hstmt
    rw [hstmt.kind]

theorem params (h : Counterpart n n') : List.Forall₂ Counterpart n.params n'.params := by
  have hlists := h.childrenOf (NodeKind.noConfusion : NodeKind.paramList ≠ .importDirective)
  apply (Spread.of_flatMap hlists fun _ _ => children).filter
  · intro param param' hp
    rw [hp.kind]
  · intro line hline
    rw [hline.kind]
    rfl

theorem classMembers (h : Counterpart n n') :
    List.Forall₂ Counterpart n.classMembers n'.classMembers := by
  have hbodies := h.childrenOf (NodeKind.noConfusion : NodeKind.classBody ≠ .importDirective)
  apply (Spread.of_flatMap hbodies fun _ _ => children).flatMap
  · intro member member' hm
    rw [← hm.kind]
    split
    · exact hm.childrenOf NodeKind.noConfusion
    · exact .cons hm .nil
    · exact .cons hm .nil
    · exact .cons hm .nil
    · exact .nil
  · intro line hline
    rw [hline.kind]

theorem findMember? (h : Counterpart n n') (name : String) :
    Option.Rel Counterpart (n.findMember? name) (n'.findMember? name) := by
  apply rel_find? h.classMembers
  intro member member' hm
  rw [hm.kind, hm.isNamed]

theorem enclosingClass? (h : Counterpart n n') :
    Option.Rel Counterpart n.enclosingClass? n'.enclosingClass? := by
  apply rel_find? h.strictAncestors
  intro scope scope' hs
  rw [hs.kind]

theorem declIn? (h : Counterpart n n') (name : String) :
    Option.Rel Counterpart (n.declIn? name) (n'.declIn? name) := by
  have hnamed (d d' : Node) (hd : Counterpart d d') : d.isNamed name = d'.isNamed name :=
    hd.isNamed name
  rw [Node.declIn?, Node.declIn?, ← h.kind]
  split
  · exact rel_find? h.blockDecls hnamed
  · exact rel_find? h.params hnamed
  · exact rel_find? h.params hnamed
  · exact rel_find? h.params hnamed
  · exact rel_find? h.params hnamed
  · exact h.findMember? name
  · exact rel_find? h.topLevelDecls hnamed
  · exact .none

end Scopes

section Siblings

variable {p p' : Node}

theorem of_parent? (h : Counterpart n n') (hp : n.parent? = some p) (hp' : n'.parent? = some p') :
    Counterpart p p' := by
  have hrel := h.parent?
  rw [hp, hp'] at hrel
  cases hrel
  assumption

theorem isSame_firstExpr? (h : Counterpart n n') (hp : n.parent? = some p)
    (hp' : n'.parent? = some p') (hkind : p.kind ≠ .sourceFile) :
    p.firstExpr?.any (·.isSame n) = p'.firstExpr?.any (·.isSame n') := by
  apply any_eq_of_rel (h.of_parent? hp hp').firstExpr?
  intro c c' hc hc' hcc
  have hmem := mem_children_of_firstExpr? hc
  have habove := (above_of_mem_children hmem).trans (above_of_parent? hp).symm
  have habove' := (above_of_mem_children (mem_children_of_firstExpr? hc')).trans
    (above_of_parent? hp').symm
  rw [isSame_of_above habove, isSame_of_above habove', h.index hp hkind,
    hcc.index (parent?_of_mem_children hmem) hkind]

theorem isMemberName (h : Counterpart n n') (hp : n.parent? = some p)
    (hp' : n'.parent? = some p') : n.isMemberName p = n'.isMemberName p' := by
  have hkind := (h.of_parent? hp hp').kind
  rw [Node.isMemberName, Node.isMemberName, ← hkind]
  cases hmember : p.kind == .memberExpr with
  | false => rfl
  | true =>
    have hroot : p.kind ≠ .sourceFile := by
      rw [beq_iff_eq.1 hmember]
      exact NodeKind.noConfusion
    rw [h.isSame_firstExpr? hp hp' hroot]

end Siblings

end Counterpart

end CrossReference.Source.Node
