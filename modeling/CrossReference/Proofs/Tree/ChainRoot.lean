import CrossReference.Proofs.Symbols.Access
import CrossReference.Proofs.Tree.Children
import CrossReference.Proofs.Tree.Leaves
import Mathlib.Data.List.Pairwise

namespace CrossReference.Source.Node

variable {root n p c : Node}

def Ends (n : Node) : Prop :=
  ∀ p, n.parent? = some p → p.kind ≠ .memberExpr ∧ (p.kind = .callExpr → p.firstExpr? ≠ some n)

theorem eq_of_isSame {a b : Node} (ha : a ∈ n.children) (hb : b ∈ n.children)
    (h : a.isSame b = true) : a = b := by
  by_contra hne
  have hpairs := (pairwise_index (n.here :: n.above) n.start 0 n.here.children).imp Nat.ne_of_lt
  have hsymm : Std.Symm fun a b : Node => a.here.index ≠ b.here.index := ⟨fun _ _ => Ne.symm⟩
  have hpath : a.path = b.path := beq_iff_eq.1 h
  exact hpairs.forall ha hb hne (List.cons.inj hpath).1

theorem isSame_self (n : Node) : n.isSame n = true := beq_self_eq_true n.path

theorem continuesChain_iff (hc : c ∈ p.children) : p.continuesChain c = true ↔
    p.kind = .memberExpr ∨ p.kind = .callExpr ∧ p.firstExpr? = some c := by
  unfold continuesChain
  split
  · next hkind => simp [hkind]
  · next hkind =>
    cases hfirst : p.firstExpr? with
    | none => simp [hkind]
    | some callee =>
      have hcallee := mem_children_of_firstExpr? hfirst
      have hsame : callee.isSame c = true ↔ callee = c :=
        ⟨eq_of_isSame hcallee hc, fun h => h ▸ isSame_self callee⟩
      simp [hkind, hsame]
  · next hmember hcall =>
    have hother : p.kind ≠ .memberExpr ∧ p.kind ≠ .callExpr := ⟨hmember, hcall⟩
    simp [hother]

theorem chainRoot_of_mem_children (h : c ∈ p.children) :
    c.chainRoot = if p.continuesChain c then p.chainRoot else c := by
  rw [chainRoot, strictAncestors_of_mem_children h, climb]
  rfl

theorem chainRoot_of_continues (hc : c ∈ p.children) (hcont : p.continuesChain c = true) :
    c.chainRoot = p.chainRoot := by
  rw [chainRoot_of_mem_children hc, if_pos hcont]

theorem chainRoot_of_top (h : n.above = []) : n.chainRoot = n := by
  rw [chainRoot, strictAncestors, h, strictAncestorsIn, climb]

namespace Within

theorem of_parent? (h : Within root n) (htop : root.above = []) (hp : n.parent? = some p) :
    Within root p ∧ n ∈ p.children := by
  cases h with
  | root =>
    rw [parent?, htop] at hp
    cases hp
  | child hm hc =>
    rw [parent?_of_mem_children hc] at hp
    cases hp
    exact ⟨hm, hc⟩

theorem chainRoot_of_ends (h : Within root n) (htop : root.above = []) (hn : n.Ends) :
    n.chainRoot = n := by
  cases h with
  | root => exact chainRoot_of_top htop
  | @child p n _ hc =>
    obtain ⟨hmember, hcall⟩ := hn p (parent?_of_mem_children hc)
    rw [chainRoot_of_mem_children hc, if_neg]
    rw [continuesChain_iff hc]
    rintro (hkind | ⟨hkind, hfirst⟩)
    · exact hmember hkind
    · exact hcall hkind hfirst

theorem exists_parent_of_not_ends (h : Within root n) (htop : root.above = []) (hn : ¬ n.Ends) :
    ∃ p, Within root p ∧ n ∈ p.children ∧ p.continuesChain n = true ∧
      n.chainRoot = p.chainRoot := by
  simp only [Ends, not_forall, not_and_or, not_not] at hn
  obtain ⟨p, hp, hgoes⟩ := hn
  obtain ⟨hwithin, hc⟩ := h.of_parent? htop hp
  have hcontinues : p.continuesChain n = true := by
    rw [continuesChain_iff hc]
    exact hgoes.imp_right fun h => ⟨h.1, h.2⟩
  exact ⟨p, hwithin, hc, hcontinues, chainRoot_of_continues hc hcontinues⟩

end Within

theorem callLast?_some {call : Node} {segments result : List Segment}
    (h : callLast? call segments = some result) :
    ∃ before last, segments = before ++ [last] ∧ last.call = none ∧
      result = before ++ [{ last with call := some call }] := by
  induction segments generalizing result with
  | nil => cases h
  | cons s rest ih =>
    cases rest with
    | nil =>
      rw [callLast?] at h
      split at h
      · cases h
      · next hcall =>
        cases h
        exact ⟨[], s, rfl, by simpa using hcall, rfl⟩
    | cons t rest =>
      rw [callLast?] at h
      · obtain ⟨more, hmore, rfl⟩ := Option.map_eq_some_iff.1 h
        obtain ⟨before, last, hsplit, hlast, rfl⟩ := ih hmore
        exact ⟨s :: before, last, by rw [hsplit]; rfl, hlast, rfl⟩
      · simp

theorem refSegment?_some {s : Segment} (h : n.refSegment? = some s) :
    s.ref = n ∧ s.call = none := by
  unfold refSegment? at h
  split at h
  · obtain ⟨_, h⟩ := Option.ite_none_right_eq_some.1 h
    cases h
    exact ⟨rfl, rfl⟩
  · cases h

theorem chain?_call_none {callee : Node} (hkind : n.kind = .callExpr) (hexprs : n.exprs = [callee])
    (hcallee : ¬ (callee.kind = .nameRef ∨ callee.kind = .memberExpr)) : n.chain? = none := by
  rw [chain?]
  simp only [hkind]
  split
  · next first rest h =>
    obtain ⟨rfl, rfl⟩ : callee = first ∧ [] = rest := by simpa [hexprs] using h
    rw [if_neg hcallee]
  · rfl

inductive Extends (p : Node) : List Segment → List Segment → Prop
  | member (segments : List Segment) (s : Segment) : s.call = none →
      Extends p segments (segments ++ [s])
  | call (before : List Segment) (last : Segment) : last.call = none →
      Extends p (before ++ [last]) (before ++ [{ last with call := some p }])

def weight (segments : List Segment) : Nat :=
  segments.length + segments.countP (·.call.isSome)

theorem Extends.length_le {xs ys : List Segment} (h : Extends p xs ys) :
    xs.length ≤ ys.length := by
  cases h <;> simp

theorem Extends.weight_lt {xs ys : List Segment} (h : Extends p xs ys) : weight xs < weight ys := by
  cases h with
  | member segments s hs =>
    simp only [weight, List.length_append, List.countP_append, List.length_singleton]
    omega
  | call before last hlast => simp [weight, List.countP_append, hlast]

namespace WellShaped

theorem exprs_of_member (h : p.WellShaped) (hkind : p.kind = .memberExpr) :
    ∃ object member, p.children = [object, member] ∧ p.exprs = [object, member] ∧
      member.kind = .nameRef := by
  obtain ⟨object, member, hchildren, hobject, hmember⟩ := h.memberExpr hkind
  have href : member.kind.isExpr = true := by rw [hmember]; rfl
  exact ⟨object, member, hchildren, by simp [exprs, hchildren, hobject, href], hmember⟩

theorem read_member (h : p.WellShaped) (hkind : p.kind = .memberExpr) {result : List Segment}
    (hp : p.chain? = some result) :
    ∃ object member init last, p.children = [object, member] ∧ member.kind = .nameRef ∧
      object.chain? = some init ∧ member.refSegment? = some last ∧ result = init ++ [last] := by
  obtain ⟨object, member, hchildren, hexprs, href⟩ := h.exprs_of_member hkind
  rw [chain?_member hkind hexprs href] at hp
  obtain ⟨init, hinit, hp⟩ := Option.bind_eq_some_iff.1 hp
  obtain ⟨last, hlast, rfl⟩ := Option.map_eq_some_iff.1 hp
  exact ⟨object, member, init, last, hchildren, href, hinit, hlast, rfl⟩

theorem read_call (h : p.WellShaped) (hkind : p.kind = .callExpr) {result : List Segment}
    (hp : p.chain? = some result) :
    ∃ callee before last, callee ∈ p.children ∧ p.firstExpr? = some callee ∧
      callee.chain? = some (before ++ [last]) ∧ last.call = none ∧
      result = before ++ [{ last with call := some p }] := by
  obtain ⟨callee, hhead, hexprs, _⟩ := h.callExpr hkind
  by_cases hcallee : callee.kind = .nameRef ∨ callee.kind = .memberExpr
  · rw [chain?_call hkind hexprs hcallee] at hp
    obtain ⟨segments, hsegments, hp⟩ := Option.bind_eq_some_iff.1 hp
    obtain ⟨before, last, rfl, hlast, rfl⟩ := callLast?_some hp
    have hfirst : p.firstExpr? = some callee := by rw [firstExpr?, hexprs]; rfl
    exact ⟨callee, before, last, List.mem_of_head? hhead, hfirst, hsegments, hlast, rfl⟩
  · rw [chain?_call_none hkind hexprs hcallee] at hp
    cases hp

theorem exists_extends (h : p.WellShaped) (hc : c ∈ p.children) (hcont : p.continuesChain c = true)
    (hkind : c.kind ≠ .nameRef) {result : List Segment} (hp : p.chain? = some result) :
    ∃ segments, c.chain? = some segments ∧ Extends p segments result := by
  rcases (continuesChain_iff hc).1 hcont with hmember | ⟨hcall, hfirst⟩
  · obtain ⟨object, member, init, last, hchildren, href, hinit, hlast, rfl⟩ :=
      h.read_member hmember hp
    have hobject : c = object := by
      rw [hchildren] at hc
      rcases List.mem_cons.1 hc with hc | hc
      · exact hc
      · exact absurd (List.mem_singleton.1 hc ▸ href) hkind
    exact ⟨init, hobject ▸ hinit, .member init last (refSegment?_some hlast).2⟩
  · obtain ⟨callee, before, last, _, hcallee, hsegments, hlast, rfl⟩ := h.read_call hcall hp
    obtain rfl := Option.some.inj (hcallee.symm.trans hfirst)
    exact ⟨_, hsegments, .call before last hlast⟩

end WellShaped

theorem Within.chain?_chainRoot (h : Within root n) (htop : root.above = [])
    (hshape : ∀ m, Within root m → m.WellShaped)
    (hkind : n.kind = .memberExpr ∨ n.kind = .callExpr) {result : List Segment}
    (hroot : n.chainRoot.chain? = some result) :
    ∃ segments, n.chain? = some segments ∧ segments.length ≤ result.length ∧
      weight segments ≤ weight result := by
  induction h with
  | root =>
    rw [chainRoot_of_top htop] at hroot
    exact ⟨result, hroot, Nat.le_refl _, Nat.le_refl _⟩
  | @child p c hp hc ih =>
    rw [chainRoot_of_mem_children hc] at hroot
    split at hroot
    · next hcont =>
      have hpkind : p.kind = .memberExpr ∨ p.kind = .callExpr :=
        ((continuesChain_iff hc).1 hcont).imp_right And.left
      have hckind : c.kind ≠ .nameRef := by
        rcases hkind with hkind | hkind <;> rw [hkind] <;> exact NodeKind.noConfusion
      obtain ⟨longer, hlonger, hlength, hweight⟩ := ih hpkind hroot
      obtain ⟨segments, hsegments, hextends⟩ :=
        (hshape p hp).exists_extends hc hcont hckind hlonger
      exact ⟨segments, hsegments, Nat.le_trans hextends.length_le hlength,
        Nat.le_trans (Nat.le_of_lt hextends.weight_lt) hweight⟩
    · exact ⟨result, hroot, Nat.le_refl _, Nat.le_refl _⟩

theorem chain?_nameRef (hkind : n.kind = .nameRef) :
    n.chain? = n.refSegment?.map fun s => [s] := by
  rw [chain?]
  simp only [hkind]

theorem kind_of_chain? {segments : List Segment} (h : n.chain? = some segments) :
    n.kind = .nameRef ∨ n.kind = .memberExpr ∨ n.kind = .callExpr := by
  by_contra hother
  simp only [not_or] at hother
  rw [chain?] at h
  split at h
  · exact hother.1 ‹_›
  · exact hother.2.1 ‹_›
  · exact hother.2.2 ‹_›
  · cases h

structure NamedBy (n : Node) (refs : List Node) : Prop where
  within : ∀ r ∈ refs, Within n r
  kind : ∀ r ∈ refs, r.kind = .nameRef
  chainRoot : ∀ r ∈ refs, r.chainRoot = n.chainRoot
  ordered : refs.Pairwise fun a b => a.stop ≤ b.start

namespace NamedBy

variable {refs : List Node}

theorem single (hkind : n.kind = .nameRef) : n.NamedBy [n] where
  within := by simpa using Within.root
  kind := by simpa using hkind
  chainRoot := by simp
  ordered := List.pairwise_singleton _ _

theorem of_child (h : c.NamedBy refs) (hc : c ∈ p.children) (hcont : p.continuesChain c = true) :
    p.NamedBy refs where
  within r hr := (Within.root.child hc).trans (h.within r hr)
  kind := h.kind
  chainRoot r hr := (h.chainRoot r hr).trans (chainRoot_of_continues hc hcont)
  ordered := h.ordered

theorem snoc {object member : Node} (h : object.NamedBy refs) (hp : p.kind = .memberExpr)
    (hchildren : p.children = [object, member]) (hmember : member.kind = .nameRef) :
    p.NamedBy (refs ++ [member]) := by
  have hobjectMem : object ∈ p.children := by simp [hchildren]
  have hmemberMem : member ∈ p.children := by simp [hchildren]
  have hobject := h.of_child hobjectMem ((continuesChain_iff hobjectMem).2 (.inl hp))
  have hlast := (single hmember).of_child hmemberMem ((continuesChain_iff hmemberMem).2 (.inl hp))
  have hbefore : object.stop ≤ member.start := by
    have hpairs := pairwise_childrenFrom (p.here :: p.above) p.start 0 p.here.children
    rw [← children, hchildren] at hpairs
    simpa using hpairs
  refine ⟨?_, ?_, ?_, List.pairwise_append.2 ⟨hobject.ordered, hlast.ordered, ?_⟩⟩
  · exact List.forall_mem_append.2 ⟨hobject.within, hlast.within⟩
  · exact List.forall_mem_append.2 ⟨hobject.kind, hlast.kind⟩
  · exact List.forall_mem_append.2 ⟨hobject.chainRoot, hlast.chainRoot⟩
  · intro r hr m hm
    obtain rfl := List.mem_singleton.1 hm
    exact Nat.le_trans (range_of_within (h.within r hr)).2 hbefore

end NamedBy

theorem namedBy_of_chain? (hshape : ∀ m, Within n m → m.WellShaped) {segments : List Segment}
    (hn : n.chain? = some segments) : n.NamedBy (segments.map Segment.ref) := by
  induction hd : n.depth using Nat.strongRecOn generalizing n segments with
  | _ d ih =>
    have below {c : Node} (hc : c ∈ n.children) {segments : List Segment}
        (h : c.chain? = some segments) : c.NamedBy (segments.map Segment.ref) :=
      ih _ (hd ▸ depth_lt_of_mem_children hc)
        (fun m hm => hshape m ((Within.root.child hc).trans hm)) h rfl
    rcases kind_of_chain? hn with hkind | hkind | hkind
    · rw [chain?_nameRef hkind] at hn
      obtain ⟨s, hs, rfl⟩ := Option.map_eq_some_iff.1 hn
      rw [List.map_singleton, (refSegment?_some hs).1]
      exact .single hkind
    · obtain ⟨object, member, init, last, hchildren, href, hinit, hlast, rfl⟩ :=
        (hshape n .root).read_member hkind hn
      rw [List.map_append, List.map_singleton, (refSegment?_some hlast).1]
      exact (below (by simp [hchildren]) hinit).snoc hkind hchildren href
    · obtain ⟨callee, before, last, hmem, hfirst, hsegments, _, rfl⟩ :=
        (hshape n .root).read_call hkind hn
      have hcont : n.continuesChain callee = true :=
        (continuesChain_iff hmem).2 (.inr ⟨hkind, hfirst⟩)
      simpa using (below hmem hsegments).of_child hmem hcont

theorem Within.last_of_chain? (h : Within root n) (hshape : ∀ m, Within root m → m.WellShaped)
    {before : List Segment} {last : Segment} (hn : n.chain? = some (before ++ [last])) :
    Within root last.ref ∧ last.ref.kind = .nameRef ∧ last.ref.chainRoot = n.chainRoot := by
  have hnamed := namedBy_of_chain? (fun m hm => hshape m (h.trans hm)) hn
  have hlast : last.ref ∈ (before ++ [last]).map Segment.ref := by simp
  exact ⟨h.trans (hnamed.within _ hlast), hnamed.kind _ hlast, hnamed.chainRoot _ hlast⟩

end CrossReference.Source.Node
