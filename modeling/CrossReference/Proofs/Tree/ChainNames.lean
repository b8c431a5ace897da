import CrossReference.Proofs.Tree.ChainRoot

/-!
Reading a chain down from its outermost expression and climbing up from one of its names come to
the same chain: the names that are read are the names that climb there.
-/

namespace CrossReference.Source

namespace Node

variable {root n p c : Node}

theorem path_of_mem_children (h : c ∈ p.children) : c.path = c.here.index :: p.path := by
  rw [path, above_of_mem_children h]
  rfl

theorem Within.eq_of_isSame {a b : Node} (ha : Within root a) (hb : Within root b)
    (htop : root.above = []) (h : a.isSame b = true) : a = b := by
  have hroot : root.path = [root.here.index] := by rw [path, htop]; rfl
  have below {p c : Node} (hc : c ∈ p.children) : c.path ≠ root.path := by
    rw [path_of_mem_children hc, hroot]
    simp [path]
  have hpath : a.path = b.path := beq_iff_eq.1 h
  induction ha generalizing b with
  | root =>
    cases hb with
    | root => rfl
    | child _ hc => exact absurd hpath.symm (below hc)
  | child _ hc ih =>
    cases hb with
    | root => exact absurd hpath (below hc)
    | child hq hd =>
      rw [path_of_mem_children hc, path_of_mem_children hd] at hpath
      have hparents := (List.cons.inj hpath).2
      obtain rfl := ih hq (beq_iff_eq.2 hparents) hparents
      exact Node.eq_of_isSame hc hd h

theorem Within.chainRoot (h : Within root n) (htop : root.above = []) :
    Within root n.chainRoot := by
  induction h with
  | root =>
    rw [chainRoot_of_top htop]
    exact .root
  | child hp hc ih =>
    rw [chainRoot_of_mem_children hc]
    split
    · exact ih
    · exact hp.child hc

theorem WellShaped.exists_part (h : p.WellShaped) (hc : c ∈ p.children)
    (hcont : p.continuesChain c = true) {result : List Segment} (hp : p.chain? = some result) :
    ∃ segments, c.chain? = some segments ∧
      (segments.map Segment.ref).Sublist (result.map Segment.ref) := by
  rcases (continuesChain_iff hc).1 hcont with hmember | ⟨hcall, hfirst⟩
  · obtain ⟨object, member, init, last, hchildren, href, hinit, hlast, rfl⟩ :=
      h.read_member hmember hp
    rw [hchildren] at hc
    rcases List.mem_cons.1 hc with rfl | hc
    · exact ⟨init, hinit, by simp⟩
    · obtain rfl := List.mem_singleton.1 hc
      exact ⟨[last], by rw [chain?_nameRef href, hlast]; rfl, by simp⟩
  · obtain ⟨callee, before, last, _, hcallee, hsegments, _, rfl⟩ := h.read_call hcall hp
    obtain rfl := Option.some.inj (hcallee.symm.trans hfirst)
    exact ⟨_, hsegments, by simp⟩

theorem Within.exists_part_of_chainRoot (h : Within root n) (htop : root.above = [])
    (hshape : ∀ m, Within root m → m.WellShaped) {result : List Segment}
    (hroot : n.chainRoot.chain? = some result) :
    ∃ segments, n.chain? = some segments ∧
      (segments.map Segment.ref).Sublist (result.map Segment.ref) := by
  induction h with
  | root =>
    rw [chainRoot_of_top htop] at hroot
    exact ⟨result, hroot, .refl _⟩
  | @child p c hp hc ih =>
    rw [chainRoot_of_mem_children hc] at hroot
    split at hroot
    · next hcont =>
      obtain ⟨longer, hlonger, hsub⟩ := ih hroot
      obtain ⟨segments, hsegments, hpart⟩ := (hshape p hp).exists_part hc hcont hlonger
      exact ⟨segments, hsegments, hpart.trans hsub⟩
    · exact ⟨result, hroot, .refl _⟩

theorem Within.mem_names_of_chainRoot (h : Within root n) (htop : root.above = [])
    (hshape : ∀ m, Within root m → m.WellShaped) (hkind : n.kind = .nameRef)
    {result : List Segment} (hroot : n.chainRoot.chain? = some result) :
    ∃ s ∈ result, s.ref = n := by
  obtain ⟨segments, hsegments, hsub⟩ := h.exists_part_of_chainRoot htop hshape hroot
  rw [chain?_nameRef hkind] at hsegments
  obtain ⟨s, hs, rfl⟩ := Option.map_eq_some_iff.1 hsegments
  have hmem : n ∈ result.map Segment.ref := hsub.subset (by simp [(refSegment?_some hs).1])
  simpa using hmem

end Node

def Segment.Precedes (a b : Segment) : Prop :=
  a.ref.isSame b.ref = false ∧ a.ref.start < b.ref.start ∧ a.ref.stop ≤ b.ref.start

namespace Node

variable {text : String} {n : Node} {segments : List Segment}

theorem Within.precedes_of_chain? (h : (parse text).root.Within n)
    (hn : n.chain? = some segments) : segments.Pairwise Segment.Precedes := by
  have hnamed := namedBy_of_chain? (fun m hm => (h.trans hm).wellShaped) hn
  refine (List.pairwise_map.1 hnamed.ordered).imp_of_mem fun {a b} ha hb hstop => ?_
  have hawithin := h.trans (hnamed.within _ (List.mem_map_of_mem ha))
  have hbwithin := h.trans (hnamed.within _ (List.mem_map_of_mem hb))
  have hstart : a.ref.start < b.ref.start :=
    Nat.lt_of_lt_of_le (hawithin.start_lt_stop (hnamed.kind _ (List.mem_map_of_mem ha))) hstop
  refine ⟨Bool.eq_false_iff.2 fun hsame => ?_, hstart, hstop⟩
  rw [hawithin.eq_of_isSame hbwithin rfl hsame] at hstart
  exact Nat.lt_irrefl _ hstart

theorem eq_of_isSame_ref (h : segments.Pairwise Segment.Precedes) {i j : Fin segments.length}
    (hsame : (segments.get i).ref.isSame (segments.get j).ref = true) : i = j := by
  have hlt := List.pairwise_iff_get.1 h
  rcases Nat.lt_trichotomy i j with hij | hij | hij
  · rw [(hlt i j hij).1] at hsame
    cases hsame
  · exact Fin.ext hij
  · have hflip := (hlt j i hij).1
    rw [isSame, BEq.comm] at hflip
    rw [isSame, hflip] at hsame
    cases hsame

end Node

theorem chain_names_climb_to_it {text : String} {n : Node}
    (hn : n ∈ (parse text).root.descendants) (segments : List Segment) :
    (n.chain? = some segments →
      segments.Pairwise Segment.Precedes ∧
      ∀ s ∈ segments, s.ref ∈ n.descendants ∧ s.ref.kind = .nameRef ∧
        n.start ≤ s.ref.start ∧ s.ref.stop ≤ n.stop ∧ s.ref.chainRoot = n.chainRoot) ∧
    (n.kind = .nameRef → n.chainRoot.chain? = some segments →
      ∃ i : Fin segments.length, (segments.get i).ref = n ∧
        ∀ j : Fin segments.length, (segments.get j).ref.isSame n = true → j = i) := by
  have hwithin := Node.mem_descendants_iff.1 hn
  refine ⟨fun hchain => ⟨hwithin.precedes_of_chain? hchain, fun s hs => ?_⟩, fun hkind hroot => ?_⟩
  · have hnamed := Node.namedBy_of_chain? (fun m hm => (hwithin.trans hm).wellShaped) hchain
    have href := hnamed.within _ (List.mem_map_of_mem hs)
    obtain ⟨hstart, hstop⟩ := Node.range_of_within href
    exact ⟨Node.mem_descendants_iff.2 href, hnamed.kind _ (List.mem_map_of_mem hs), hstart, hstop,
      hnamed.chainRoot _ (List.mem_map_of_mem hs)⟩
  · obtain ⟨s, hs, rfl⟩ :=
      hwithin.mem_names_of_chainRoot rfl (fun _ hm => hm.wellShaped) hkind hroot
    obtain ⟨i, rfl⟩ := List.mem_iff_get.1 hs
    have htop := hwithin.chainRoot rfl
    exact ⟨i, rfl, fun j hj => Node.eq_of_isSame_ref (htop.precedes_of_chain? hroot) hj⟩

theorem chain_names_climb_to_it_past_arguments :
    ∃ n ∈ (parse "final x = a.b(c.d).e;").root.descendants, ∃ segments,
      n.chain? = some segments ∧ segments.length = 3 ∧ segments.Pairwise Segment.Precedes ∧
      ∀ s ∈ segments, s.ref.chainRoot = n.chainRoot := by
  have hsome : (parse "final x = a.b(c.d).e;").root.descendants.any
      (fun n => n.chain?.map List.length == some 3) := by decide +kernel
  obtain ⟨n, hn, hlength⟩ := List.any_eq_true.1 hsome
  obtain ⟨segments, hchain, hthree⟩ := Option.map_eq_some_iff.1 (beq_iff_eq.1 hlength)
  obtain ⟨hprecedes, hnames⟩ := (chain_names_climb_to_it hn segments).1 hchain
  exact ⟨n, hn, segments, hchain, hthree, hprecedes, fun s hs => (hnames s hs).2.2.2.2⟩

end CrossReference.Source
