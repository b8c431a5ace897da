import CrossReference.Proofs.Reading.Naming
import CrossReference.Source.Declaration

namespace CrossReference.Source

theorem Tree.sizeAll_append (xs ys : List Tree) :
    sizeAll (xs ++ ys) = sizeAll xs + sizeAll ys := by
  rw [sizeAll_eq, sizeAll_eq, sizeAll_eq, tokensAll_append, byteSize_append]

namespace Node

inductive Within (root : Node) : Node → Prop
  | root : Within root root
  | child {n c : Node} : Within root n → c ∈ n.children → Within root c

structure ChildAt (above : List Level) (start index : Nat) (ts : List Tree) (c : Node)
    (before after : List Tree) : Prop where
  split : ts = before ++ c.tree :: after
  start : c.start = start + Tree.sizeAll before
  index : c.here.index = index + before.length
  above : c.above = above

theorem exists_childAt {above : List Level} {start index : Nat} {ts : List Tree} {c : Node}
    (h : c ∈ childrenFrom above start index ts) :
    ∃ before after, ChildAt above start index ts c before after := by
  induction ts generalizing start index with
  | nil => cases h
  | cons t ts ih =>
    cases t with
    | leaf token =>
      obtain ⟨before, after, hc⟩ := ih h
      refine ⟨.leaf token :: before, after, ?_, ?_, ?_, hc.above⟩
      · rw [hc.split, List.cons_append]
      · rw [hc.start, Tree.sizeAll, Tree.size, Nat.add_assoc]
      · rw [hc.index, List.length_cons]
        omega
    | node kind children =>
      rcases List.mem_cons.1 h with rfl | h
      · exact ⟨[], ts, rfl, rfl, rfl, rfl⟩
      · obtain ⟨before, after, hc⟩ := ih h
        refine ⟨.node kind children :: before, after, ?_, ?_, ?_, hc.above⟩
        · rw [hc.split, List.cons_append]
        · rw [hc.start, Tree.sizeAll, Tree.size, Nat.add_assoc]
        · rw [hc.index, List.length_cons]
          omega

variable {root n c m : Node}

theorem tree_mem_of_mem_children (h : c ∈ n.children) : c.tree ∈ n.here.children := by
  obtain ⟨before, after, hc⟩ := exists_childAt h
  rw [hc.split]
  simp

theorem above_of_mem_children (h : c ∈ n.children) : c.above = n.here :: n.above := by
  obtain ⟨before, after, hc⟩ := exists_childAt h
  exact hc.above

theorem parent?_of_mem_children (h : c ∈ n.children) : c.parent? = some n := by
  rw [parent?, above_of_mem_children h]

theorem strictAncestors_of_mem_children (h : c ∈ n.children) :
    c.strictAncestors = n :: n.strictAncestors := by
  rw [strictAncestors, above_of_mem_children h, strictAncestorsIn]
  rfl

theorem above_of_parent? (h : n.parent? = some m) : n.above = m.here :: m.above := by
  unfold parent? at h
  split at h
  · cases h
  · next habove =>
    cases h
    exact habove

theorem range_of_mem_children (h : c ∈ n.children) : n.start ≤ c.start ∧ c.stop ≤ n.stop := by
  obtain ⟨before, after, hc⟩ := exists_childAt h
  have hsize : Tree.sizeAll n.here.children =
      Tree.sizeAll before + (Tree.sizeAll c.here.children + Tree.sizeAll after) := by
    rw [hc.split, Tree.sizeAll_append]
    rfl
  have hstart := hc.start
  rw [stop, stop]
  omega

theorem mem_children_of_child? {kind : NodeKind} (h : n.child? kind = some c) :
    c ∈ n.children ∧ c.kind = kind := by
  have hk := List.find?_some h
  exact ⟨List.mem_of_find?_eq_some h, beq_iff_eq.1 hk⟩

theorem mem_children_of_firstExpr? (h : n.firstExpr? = some c) : c ∈ n.children :=
  (List.mem_filter.1 (List.mem_of_head? h)).1

namespace Within

theorem trans (hn : Within root n) (hm : Within n m) : Within root m := by
  induction hm with
  | root => exact hn
  | child _ hc ih => exact ih.child hc

theorem strictAncestor (h : Within root n) (htop : root.above = []) :
    ∀ m ∈ n.strictAncestors, Within root m := by
  induction h with
  | root =>
    intro m hm
    rw [strictAncestors, htop] at hm
    cases hm
  | @child n c hn hc ih =>
    intro m hm
    rw [strictAncestors_of_mem_children hc] at hm
    rcases List.mem_cons.1 hm with rfl | hm
    · exact hn
    · exact ih m hm

theorem ancestor (h : Within root n) (htop : root.above = []) :
    ∀ m ∈ n.ancestors, Within root m := by
  intro m hm
  rcases List.mem_cons.1 hm with rfl | hm
  · exact h
  · exact h.strictAncestor htop m hm

theorem parent (h : Within root n) (htop : root.above = []) (hp : n.parent? = some m) :
    Within root m := by
  apply h.strictAncestor htop
  rw [strictAncestors, above_of_parent? hp, strictAncestorsIn]
  exact List.mem_cons_self

theorem regular (h : Within root n) (hroot : root.tree.Regular) : n.tree.Regular := by
  induction h with
  | root => exact hroot
  | child _ hc ih => exact Tree.regularAll_iff.1 ih.2 _ (tree_mem_of_mem_children hc)

theorem slice (h : Within root n) :
    ∃ before after, root.tree.tokens = before ++ n.tree.tokens ++ after ∧
      n.start = root.start + byteSize before := by
  induction h with
  | root => exact ⟨[], [], by simp, rfl⟩
  | @child n c _ hc ih =>
    obtain ⟨before, after, htokens, hstart⟩ := ih
    obtain ⟨pre, post, hchild⟩ := exists_childAt hc
    have hn : n.tree.tokens =
        Tree.tokensAll pre ++ (c.tree.tokens ++ Tree.tokensAll post) := by
      rw [tree, Tree.tokens, hchild.split, Tree.tokensAll_append, Tree.tokensAll]
    refine ⟨before ++ Tree.tokensAll pre, Tree.tokensAll post ++ after, ?_, ?_⟩
    · rw [htokens, hn]
      simp
    · rw [hchild.start, hstart, Tree.sizeAll_eq, byteSize_append, Nat.add_assoc]

end Within

theorem within_firstExpr? (h : n.firstExpr? = some m) : n.Within m :=
  Within.root.child (mem_children_of_firstExpr? h)

theorem preorderAll_eq (above : List Level) (start index : Nat) (ts : List Tree) :
    preorderAll above start index ts =
      (childrenFrom above start index ts).flatMap descendants := by
  induction ts generalizing start index with
  | nil => rfl
  | cons t ts ih =>
    cases t with
    | leaf token =>
      rw [preorderAll, preorder, ih, childrenFrom]
      rfl
    | node kind children =>
      rw [preorderAll, preorder, ih, childrenFrom, List.flatMap_cons]
      rfl

theorem descendants_eq (n : Node) : n.descendants = n :: n.children.flatMap descendants := by
  rw [descendants, preorderAll_eq]
  rfl

theorem mem_descendants_self (n : Node) : n ∈ n.descendants := by
  rw [descendants_eq]
  exact List.mem_cons_self

theorem mem_descendants_of_child (hn : n ∈ root.descendants) (hc : c ∈ n.children) :
    c ∈ root.descendants := by
  induction hd : root.depth using Nat.strongRecOn generalizing root with
  | _ d ih =>
    rw [descendants_eq] at hn ⊢
    rcases List.mem_cons.1 hn with rfl | hn
    · apply List.mem_cons_of_mem
      exact List.mem_flatMap.2 ⟨c, hc, mem_descendants_self c⟩
    · obtain ⟨k, hk, hn⟩ := List.mem_flatMap.1 hn
      apply List.mem_cons_of_mem
      exact List.mem_flatMap.2 ⟨k, hk, ih _ (hd ▸ depth_lt_of_mem_children hk) hn rfl⟩

theorem mem_descendants_iff : n ∈ root.descendants ↔ Within root n := by
  constructor
  · intro h
    induction hd : root.depth using Nat.strongRecOn generalizing root with
    | _ d ih =>
      rw [descendants_eq] at h
      rcases List.mem_cons.1 h with rfl | h
      · exact .root
      · obtain ⟨k, hk, h⟩ := List.mem_flatMap.1 h
        have hbelow := ih _ (hd ▸ depth_lt_of_mem_children hk) h rfl
        exact (Within.root.child hk).trans hbelow
  · intro h
    induction h with
    | root => exact mem_descendants_self root
    | child _ hc ih => exact mem_descendants_of_child ih hc

theorem mem_leavesAll {p : Node} {start index : Nat} {ts : List Tree} {l : Leaf}
    (h : l ∈ leavesAll p start index ts) :
    (l.parent = p ∧ .leaf l.token ∈ ts) ∨
      ∃ c ∈ childrenFrom (p.here :: p.above) start index ts, l ∈ c.leaves := by
  induction ts generalizing start index with
  | nil => cases h
  | cons t ts ih =>
    rw [leavesAll] at h
    cases t with
    | leaf token =>
      rcases List.mem_append.1 h with h | h
      · obtain rfl := List.mem_singleton.1 h
        exact .inl ⟨rfl, List.mem_cons_self⟩
      · exact (ih h).imp_left fun hl => ⟨hl.1, List.mem_cons_of_mem _ hl.2⟩
    | node kind children =>
      rcases List.mem_append.1 h with h | h
      · exact .inr ⟨_, List.mem_cons_self, h⟩
      · rcases ih h with hl | ⟨c, hc, hl⟩
        · exact .inl ⟨hl.1, List.mem_cons_of_mem _ hl.2⟩
        · exact .inr ⟨c, List.mem_cons_of_mem _ hc, hl⟩

theorem within_of_mem_leaves {l : Leaf} (h : l ∈ root.leaves) :
    Within root l.parent ∧ .leaf l.token ∈ l.parent.here.children := by
  induction hd : root.depth using Nat.strongRecOn generalizing root with
  | _ d ih =>
    rcases mem_leavesAll h with ⟨rfl, hl⟩ | ⟨c, hc, hl⟩
    · exact ⟨.root, hl⟩
    · obtain ⟨hparent, htoken⟩ := ih _ (hd ▸ depth_lt_of_mem_children hc) hl rfl
      exact ⟨(Within.root.child hc).trans hparent, htoken⟩

section Scopes

variable {name : String} {d : Node}

theorem mem_childrenOf {kind : NodeKind} (h : c ∈ n.childrenOf kind) :
    c ∈ n.children ∧ c.kind = kind := by
  obtain ⟨hc, hk⟩ := List.mem_filter.1 h
  exact ⟨hc, beq_iff_eq.1 hk⟩

theorem within_childrenOf {kind : NodeKind} (h : c ∈ n.childrenOf kind) : Within n c :=
  Within.root.child (mem_childrenOf h).1

theorem within_classMembers (h : d ∈ n.classMembers) : Within n d := by
  obtain ⟨member, hmember, h⟩ := List.mem_flatMap.1 h
  obtain ⟨classBody, hbody, hmember⟩ := List.mem_flatMap.1 hmember
  have hwithin : Within n member := (within_childrenOf hbody).child hmember
  split at h
  · exact hwithin.trans (within_childrenOf h)
  · exact List.mem_singleton.1 h ▸ hwithin
  · exact List.mem_singleton.1 h ▸ hwithin
  · exact List.mem_singleton.1 h ▸ hwithin
  · cases h

structure Offers (scope : Node) (name : String) (d : Node) : Prop where
  within : Within scope d
  kind : d.kind ≠ .constructorDecl
  named : d.isNamed name = true

theorem offers_findMember? (h : n.findMember? name = some d) : Offers n name d := by
  have hd := List.find?_some h
  rw [Bool.and_eq_true, bne_iff_ne] at hd
  exact ⟨within_classMembers (List.mem_of_find?_eq_some h), hd.1, hd.2⟩

theorem Offers.of_declarators {decl : Node} (hdecl : Within n decl)
    (h : d ∈ decl.childrenOf .declarator) (hnamed : d.isNamed name = true) : Offers n name d where
  within := hdecl.trans (within_childrenOf h)
  kind := by
    rw [(mem_childrenOf h).2]
    exact NodeKind.noConfusion
  named := hnamed

theorem Offers.of_self {decl : Node} {kind : NodeKind} (hdecl : Within n decl)
    (hkind : decl.kind = kind) (hother : kind ≠ .constructorDecl) (h : d ∈ [decl])
    (hnamed : d.isNamed name = true) : Offers n name d := by
  obtain rfl := List.mem_singleton.1 h
  exact ⟨hdecl, hkind ▸ hother, hnamed⟩

theorem offers_topLevelDecls (h : d ∈ n.topLevelDecls) (hnamed : d.isNamed name = true) :
    Offers n name d := by
  obtain ⟨item, hitem, h⟩ := List.mem_flatMap.1 h
  have hwithin : Within n item := Within.root.child hitem
  split at h
  · exact .of_declarators hwithin h hnamed
  · next hkind => exact .of_self hwithin hkind NodeKind.noConfusion h hnamed
  · next hkind => exact .of_self hwithin hkind NodeKind.noConfusion h hnamed
  · next hkind => exact .of_self hwithin hkind NodeKind.noConfusion h hnamed
  · cases h

theorem offers_blockDecls (h : d ∈ n.blockDecls) (hnamed : d.isNamed name = true) :
    Offers n name d := by
  obtain ⟨stmt, hstmt, h⟩ := List.mem_flatMap.1 h
  have hwithin : Within n stmt := Within.root.child hstmt
  split at h
  · exact .of_declarators hwithin h hnamed
  · next hkind => exact .of_self hwithin hkind NodeKind.noConfusion h hnamed
  · cases h

theorem offers_params (h : d ∈ n.params) (hnamed : d.isNamed name = true) : Offers n name d := by
  obtain ⟨h, hkind⟩ := List.mem_filter.1 h
  obtain ⟨list, hlist, h⟩ := List.mem_flatMap.1 h
  refine ⟨(within_childrenOf hlist).child h, ?_, hnamed⟩
  rw [beq_iff_eq.1 hkind]
  exact NodeKind.noConfusion

end Scopes

end Node

end CrossReference.Source
