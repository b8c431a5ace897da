import CrossReference.Proofs.Symbols.History
import CrossReference.Proofs.Tree.Within
import CrossReference.Symbols.Resolution

namespace CrossReference

open Source (Node)

theorem Source.Node.offers_declIn? {name : String} {scope d : Node}
    (h : scope.declIn? name = some d) : scope.Offers name d := by
  unfold Node.declIn? at h
  split at h
  · exact Node.offers_blockDecls (List.mem_of_find?_eq_some h) (List.find?_some h)
  · exact Node.offers_params (List.mem_of_find?_eq_some h) (List.find?_some h)
  · exact Node.offers_params (List.mem_of_find?_eq_some h) (List.find?_some h)
  · exact Node.offers_params (List.mem_of_find?_eq_some h) (List.find?_some h)
  · exact Node.offers_params (List.mem_of_find?_eq_some h) (List.find?_some h)
  · exact Node.offers_findMember? h
  · exact Node.offers_topLevelDecls (List.mem_of_find?_eq_some h) (List.find?_some h)
  · cases h

theorem Source.Node.within_trailingRef? {n m : Node} (h : n.trailingRef? = some m) : n.Within m :=
  Node.within_childrenOf (List.mem_of_getLast? h)

def Located.Indexed (index : Declarations) (l : Located) : Prop :=
  ∃ root, index.root? l.file = some root ∧ l.node ∈ root.descendants

theorem Located.indexed_iff {index : Declarations} {l : Located} :
    l.Indexed index ↔ ∃ root, index.root? l.file = some root ∧ root.Within l.node := by
  simp only [Located.Indexed, Node.mem_descendants_iff]

namespace Declarations

structure Rooted (index : Declarations) : Prop where
  top : ∀ file root, index.root? file = some root → root.above = []
  lookup : ∀ name, ∀ l ∈ index.lookup name,
    l.Indexed index ∧ l.kind ≠ .constructorDecl ∧ l.node.isNamed name = true

structure Target (index : Declarations) (ref d : Located) : Prop where
  indexed : d.Indexed index
  kind : d.kind ≠ .constructorDecl
  named : (∃ name, ref.node.refName? = some name ∧ d.node.isNamed name = true) ∨
    ref.node.refName? = some "this" ∧ ref.enclosingClass? = some d

theorem Holds.rooted {index : Declarations} {files : Table FileId Node} (h : index.Holds files)
    (htop : ∀ e ∈ files, e.2.above = []) : index.Rooted where
  top file root hroot := by
    rw [root?, h.roots] at hroot
    exact htop _ (Table.mem_of_get? hroot)
  lookup name l hl := by
    rw [h.lookup] at hl
    obtain ⟨root, hfile, hmem, hnamed⟩ := mem_listed.1 hl
    have hoffers := Node.offers_topLevelDecls hmem hnamed
    have hroot : index.root? l.file = some root := by
      rw [root?, h.roots]
      exact Table.get?_of_mem h.nodup hfile
    exact ⟨Located.indexed_iff.2 ⟨root, hroot, hoffers.within⟩, hoffers.kind, hnamed⟩

variable {index : Declarations} {classOf : Located → Option Located}

def Stays (index : Declarations) (classOf : Located → Option Located) : Prop :=
  ∀ expr cls, expr.Indexed index → classOf expr = some cls → cls.Indexed index

section Moves

variable {l : Located} {n : Node}

theorem indexed_beside (h : l.Indexed index) (hn : l.node.Within n) :
    (l.beside n).Indexed index := by
  obtain ⟨root, hroot, hl⟩ := Located.indexed_iff.1 h
  exact Located.indexed_iff.2 ⟨root, hroot, hl.trans hn⟩

theorem Rooted.indexed_ancestor (hr : index.Rooted) (h : l.Indexed index)
    (hn : n ∈ l.node.ancestors) : (l.beside n).Indexed index := by
  obtain ⟨root, hroot, hl⟩ := Located.indexed_iff.1 h
  exact Located.indexed_iff.2 ⟨root, hroot, hl.ancestor (hr.top _ _ hroot) n hn⟩

theorem Rooted.indexed_parent (hr : index.Rooted) (h : l.Indexed index)
    (hn : l.node.parent? = some n) : (l.beside n).Indexed index := by
  obtain ⟨root, hroot, hl⟩ := Located.indexed_iff.1 h
  exact Located.indexed_iff.2 ⟨root, hroot, hl.parent (hr.top _ _ hroot) hn⟩

theorem Rooted.indexed_enclosingClass (hr : index.Rooted) (h : l.Indexed index) {cls : Located}
    (hc : l.enclosingClass? = some cls) : cls.Indexed index ∧ cls.kind = .classDecl := by
  obtain ⟨n, hn, rfl⟩ := Option.map_eq_some_iff.1 hc
  have hk := List.find?_some hn
  have hmem := List.mem_cons_of_mem l.node (List.mem_of_find?_eq_some hn)
  exact ⟨hr.indexed_ancestor h hmem, beq_iff_eq.1 hk⟩

theorem Rooted.indexed_lookupClass (hr : index.Rooted) {name : String} {cls : Located}
    (h : index.lookupClass? name = some cls) : cls.Indexed index :=
  (hr.lookup name cls (List.mem_of_find?_eq_some h)).1

end Moves

theorem Rooted.target_lexically (hr : index.Rooted) {ref d : Located} {name : String}
    (href : ref.Indexed index) (hname : ref.node.refName? = some name)
    (hd : index.resolveLexically? ref name = some d) : index.Target ref d := by
  unfold resolveLexically? at hd
  split at hd
  · next decl hdecl =>
    cases hd
    obtain ⟨before, scope, after, hanc, hscope, -⟩ := List.findSome?_eq_some_iff.1 hdecl
    have hmem : scope ∈ ref.node.ancestors := by
      rw [hanc]
      simp
    have hoffers := Node.offers_declIn? hscope
    have hindexed := indexed_beside (hr.indexed_ancestor href hmem) hoffers.within
    exact ⟨hindexed, hoffers.kind, .inl ⟨name, hname, hoffers.named⟩⟩
  · obtain ⟨hindexed, hkind, hnamed⟩ := hr.lookup name d (List.mem_of_head? hd)
    exact ⟨hindexed, hkind, .inl ⟨name, hname, hnamed⟩⟩

theorem Rooted.target_resolveWith (hr : index.Rooted) (hs : index.Stays classOf) {ref d : Located}
    (href : ref.Indexed index) (hd : index.resolveWith? classOf ref = some d) :
    index.Target ref d := by
  unfold resolveWith? at hd
  obtain ⟨name, hname, hd⟩ := Option.bind_eq_some_iff.1 hd
  obtain ⟨parent, hparent, hd⟩ := Option.bind_eq_some_iff.1 hd
  have hup := hr.indexed_parent href hparent
  split at hd
  · obtain ⟨receiver, hreceiver, hd⟩ := Option.bind_eq_some_iff.1 hd
    obtain ⟨cls, hcls, hd⟩ := Option.bind_eq_some_iff.1 hd
    obtain ⟨member, hmember, rfl⟩ := Option.map_eq_some_iff.1 hd
    have hexpr := indexed_beside hup (Node.within_firstExpr? hreceiver)
    have hoffers := Node.offers_findMember? hmember
    have hindexed := indexed_beside (hs _ _ hexpr hcls) hoffers.within
    exact ⟨hindexed, hoffers.kind, .inl ⟨name, hname, hoffers.named⟩⟩
  · split at hd
    · next hthis =>
      obtain ⟨hindexed, hkind⟩ := hr.indexed_enclosingClass href hd
      refine ⟨hindexed, ?_, .inr ⟨hthis ▸ hname, hd⟩⟩
      rw [hkind]
      exact Source.NodeKind.noConfusion
    · exact hr.target_lexically href hname hd

theorem Rooted.indexed_classOfDecl (hr : index.Rooted) (hs : index.Stays classOf)
    {decl cls : Located} (hdecl : decl.Indexed index)
    (hc : index.classOfDecl? classOf decl = some cls) : cls.Indexed index := by
  unfold classOfDecl? at hc
  split at hc
  · cases hc
    exact hdecl
  · exact (hr.indexed_enclosingClass hdecl hc).1
  · split at hc
    · exact hr.indexed_lookupClass hc
    · obtain ⟨value, hvalue, hc⟩ := Option.bind_eq_some_iff.1 hc
      refine hs _ _ (indexed_beside hdecl ?_) hc
      unfold typingValue? at hvalue
      split at hvalue
      · exact Node.within_firstExpr? hvalue
      · obtain ⟨arrow, harrow, hvalue⟩ := Option.bind_eq_some_iff.1 hvalue
        have hbelow := Node.Within.root.child (Node.mem_children_of_child? harrow).1
        exact hbelow.trans (Node.within_firstExpr? hvalue)
      · cases hvalue

theorem Rooted.indexed_classOfCallee (hr : index.Rooted) {decl cls : Located}
    (hdecl : decl.Indexed index) (hc : index.classOfCallee? decl = some cls) :
    cls.Indexed index := by
  unfold classOfCallee? at hc
  split at hc
  · cases hc
    exact hdecl
  · exact (hr.indexed_enclosingClass hdecl hc).1
  · obtain ⟨name, _, hc⟩ := Option.bind_eq_some_iff.1 hc
    exact hr.indexed_lookupClass hc

theorem within_calleeName {callee m : Node} (h : calleeName? callee = some m) :
    callee.Within m := by
  unfold calleeName? at h
  split at h
  · cases h
    exact .root
  · exact Node.within_trailingRef? h
  · cases h

theorem Rooted.stays_classOfExpr (hr : index.Rooted) (hs : index.Stays classOf) :
    index.Stays (index.classOfExpr? classOf) := by
  intro expr cls hexpr hc
  unfold classOfExpr? at hc
  split at hc
  · obtain ⟨d, hd, hc⟩ := Option.bind_eq_some_iff.1 hc
    exact hr.indexed_classOfDecl hs (hr.target_resolveWith hs hexpr hd).indexed hc
  · obtain ⟨member, hmember, hc⟩ := Option.bind_eq_some_iff.1 hc
    obtain ⟨d, hd, hc⟩ := Option.bind_eq_some_iff.1 hc
    have href := indexed_beside hexpr (Node.within_trailingRef? hmember)
    exact hr.indexed_classOfDecl hs (hr.target_resolveWith hs href hd).indexed hc
  · obtain ⟨first, hfirst, hc⟩ := Option.bind_eq_some_iff.1 hc
    obtain ⟨callee, hcallee, hc⟩ := Option.bind_eq_some_iff.1 hc
    obtain ⟨d, hd, hc⟩ := Option.bind_eq_some_iff.1 hc
    have hbelow := (Node.within_firstExpr? hfirst).trans (within_calleeName hcallee)
    have href := indexed_beside hexpr hbelow
    exact hr.indexed_classOfCallee (hr.target_resolveWith hs href hd).indexed hc
  · obtain ⟨inner, hinner, hc⟩ := Option.bind_eq_some_iff.1 hc
    exact hs _ _ (indexed_beside hexpr (Node.within_firstExpr? hinner)) hc
  · obtain ⟨inner, hinner, hc⟩ := Option.bind_eq_some_iff.1 hc
    exact hs _ _ (indexed_beside hexpr (Node.within_firstExpr? hinner)) hc
  · cases hc

theorem Rooted.stays_classOf (hr : index.Rooted) (depth : Nat) :
    index.Stays (index.classOf? depth) := by
  induction depth with
  | zero =>
    intro expr cls _ hc
    cases hc
  | succ depth ih => exact hr.stays_classOfExpr ih

theorem Rooted.target_resolve (hr : index.Rooted) {ref d : Located} (href : ref.Indexed index)
    (hd : index.resolve? ref = some d) : index.Target ref d := by
  unfold resolve? resolveWithin? at hd
  split at hd
  · exact hr.target_resolveWith (hr.stays_classOf typingDepth) href hd
  · cases hd

end Declarations

end CrossReference
