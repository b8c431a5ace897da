import CrossReference.Proofs.Symbols.Targets
import CrossReference.Reference.Route

namespace CrossReference

open Source (Node)

namespace Source.Node

variable {n m : Node}

theorem within_exprs (h : m ∈ n.exprs) : n.Within m :=
  Within.root.child (List.mem_filter.1 h).1

theorem within_bodyValue? (h : n.bodyValue? = some m) : n.Within m := by
  unfold bodyValue? at h
  split at h
  · exact within_firstExpr? h
  · split at h
    · next only honly =>
      split at h
      · have hchild : only ∈ n.children := honly ▸ List.mem_singleton_self only
        exact (Within.root.child hchild).trans (within_firstExpr? h)
      · cases h
    · cases h

theorem within_yielded? (h : n.yielded? = some m) : n.Within m := by
  have hbody (hb : (n.children.find? fun c => c.kind == .exprBody || c.kind == .block).bind
      bodyValue? = some m) : n.Within m := by
    obtain ⟨c, hc, hm⟩ := Option.bind_eq_some_iff.1 hb
    exact (Within.root.child (List.mem_of_find?_eq_some hc)).trans (within_bodyValue? hm)
  unfold yielded? at h
  split at h
  · exact within_firstExpr? h
  · exact hbody h
  · exact hbody h
  · exact hbody h
  · exact hbody h
  · cases h

theorem within_underNew? (h : n.underNew? = some m) : n.Within m := by
  unfold underNew? at h
  split at h
  · exact within_firstExpr? h
  · cases h
    exact .root

theorem within_callArgs? {args : List Node} (h : n.callArgs? = some args) (hm : m ∈ args) :
    n.Within m := by
  unfold callArgs? at h
  obtain ⟨call, hcall, h⟩ := Option.bind_eq_some_iff.1 h
  obtain ⟨list, hlist, h⟩ := Option.bind_eq_some_iff.1 h
  have hunder := within_underNew? (Option.filter_eq_some_iff.1 hcall).1
  split at h
  · cases h
  · cases h
    exact (hunder.child (mem_children_of_child? hlist).1).trans (within_exprs hm)

theorem within_listElements? {elements : List Node} (h : n.listElements? = some elements)
    (hm : m ∈ elements) : n.Within m := by
  unfold listElements? at h
  split at h
  · cases h
    exact within_exprs hm
  · cases h

end Source.Node

namespace Viewpoint

variable {n m : Node}

theorem within_hopName? (h : hopName? n = some m) : n.Within m := by
  unfold hopName? at h
  split at h
  · cases h
    exact .root
  · exact Node.within_trailingRef? h
  · cases h

theorem within_pageName? (h : pageName? n = some m) : n.Within m := by
  unfold pageName? at h
  obtain ⟨built, hbuilt, h⟩ := Option.bind_eq_some_iff.1 h
  obtain ⟨constructed, hnew, h⟩ := Option.bind_eq_some_iff.1 h
  have hvalue : n.Within built := by
    unfold built? at hbuilt
    split at hbuilt
    · exact Node.within_yielded? hbuilt
    · cases hbuilt
      exact .root
  apply (hvalue.trans (Node.within_underNew? hnew)).trans
  split at h
  · cases h
    exact .root
  · obtain ⟨callee, hcallee, h⟩ := Option.bind_eq_some_iff.1 h
    apply (Node.within_firstExpr? hcallee).trans
    unfold constructorName? at h
    split at h
    · cases h
      exact .root
    · exact Node.within_firstExpr? (Option.filter_eq_some_iff.1 h).1
    · cases h
  · cases h

variable {view : Viewpoint}

theorem indexed_routeMember? (hr : view.index.Rooted) (hn : (view.locate n).Indexed view.index)
    {member : Located} (h : view.routeMember? n = some member) : member.Indexed view.index := by
  unfold routeMember? at h
  obtain ⟨found, hfound, h⟩ := Option.bind_eq_some_iff.1 h
  obtain ⟨cls, hcls, hmember⟩ := List.exists_of_findSome?_eq_some hfound
  have hclass : cls.Indexed view.index := by
    rcases List.mem_append.1 hcls with hcls | hcls
    · rw [Option.mem_toList] at hcls
      exact (hr.indexed_enclosingClass hn hcls).1
    · obtain ⟨name, _, hname⟩ := List.mem_filterMap.1 hcls
      exact hr.indexed_lookupClass hname
  split at h
  · cases h
    obtain ⟨decl, hdecl, rfl⟩ := Option.map_eq_some_iff.1 hmember
    exact Declarations.indexed_beside hclass (Node.offers_findMember? hdecl).within
  · cases h

theorem indexed_routeEntries? (hr : view.index.Rooted) {member : Located}
    (hm : member.Indexed view.index) {entries : List Located}
    (h : view.routeEntries? member = some entries) :
    ∀ entry ∈ entries, entry.Indexed view.index := by
  -- The list stands in the member itself or in the variable the member names.
  have hlist {holder : Located} (hh : holder.Indexed view.index) {value : Node}
      {elements : List Node} (hv : holder.node.yielded? = some value)
      (he : value.listElements? = some elements) :
      ∀ entry ∈ elements.map holder.beside, entry.Indexed view.index := by
    intro entry hentry
    obtain ⟨element, helement, rfl⟩ := List.mem_map.1 hentry
    apply Declarations.indexed_beside hh
    exact (Node.within_yielded? hv).trans (Node.within_listElements? he helement)
  unfold routeEntries? at h
  obtain ⟨value, hvalue, h⟩ := Option.bind_eq_some_iff.1 h
  split at h
  · next elements helements =>
    cases h
    exact hlist hm hvalue helements
  · obtain ⟨hop, hhop, h⟩ := Option.bind_eq_some_iff.1 h
    obtain ⟨target, htarget, h⟩ := Option.bind_eq_some_iff.1 h
    split at h
    · obtain ⟨listed, hlisted, h⟩ := Option.bind_eq_some_iff.1 h
      obtain ⟨elements, helements, h⟩ := Option.bind_eq_some_iff.1 h
      cases h
      have hname := (Node.within_yielded? hvalue).trans (within_hopName? hhop)
      have href := Declarations.indexed_beside hm hname
      exact hlist (hr.target_resolve href htarget).indexed hlisted helements
    · cases h

theorem indexed_builderFor? {path : String} {entries : List Located} {builder : Located}
    (hentries : ∀ entry ∈ entries, entry.Indexed view.index)
    (h : builderFor? path entries = some builder) : builder.Indexed view.index := by
  induction entries with
  | nil => cases h
  | cons entry entries ih =>
    have hrest := ih fun e he => hentries e (List.mem_cons_of_mem _ he)
    unfold builderFor? at h
    split at h
    · next literal found hparts =>
      split at h
      · cases h
        unfold routeParts? at hparts
        split at hparts
        · next args hargs =>
          cases hparts
          apply Declarations.indexed_beside (hentries entry List.mem_cons_self)
          exact Node.within_callArgs? hargs (by simp)
        · cases hparts
      · exact hrest h
    · exact hrest h

theorem exists_ref_of_routePage? (hr : view.index.Rooted)
    (hn : (view.locate n).Indexed view.index) {page : Located}
    (h : view.routePage? n = some page) :
    ∃ ref, ref.Indexed view.index ∧ view.index.resolve? ref = some page := by
  unfold routePage? at h
  split at h
  · cases h
  · obtain ⟨path, _, h⟩ := Option.bind_eq_some_iff.1 h
    split at h
    · cases h
    · obtain ⟨member, hmember, h⟩ := Option.bind_eq_some_iff.1 h
      obtain ⟨entries, hentries, h⟩ := Option.bind_eq_some_iff.1 h
      obtain ⟨builder, hbuilder, h⟩ := Option.bind_eq_some_iff.1 h
      obtain ⟨name, hname, h⟩ := Option.bind_eq_some_iff.1 h
      have hlisted := indexed_routeEntries? hr (indexed_routeMember? hr hn hmember) hentries
      have hindexed := indexed_builderFor? hlisted hbuilder
      exact ⟨_, Declarations.indexed_beside hindexed (within_pageName? hname), h⟩

end Viewpoint

end CrossReference
