import CrossReference.Proofs.Reference.KeyScan
import CrossReference.Proofs.Reference.Message
import CrossReference.Proofs.Tree.ChainRoot
import CrossReference.Proofs.Tree.Leaves

/-!
Links and folds beside the way to a definition. A link or a fold stands for a chain wherever it is
found; the way to a definition starts from the outermost chain around a name, so it leads to the
same place if and only if the chain ends there.
-/

namespace CrossReference

open Source (Node Segment)
open Json (Placed Laid)

namespace Viewpoint

variable {view : Viewpoint} {root n p : Node}

theorem destination?_within (h : root.Within n) (hn : n.WellShaped) (hkind : n.kind = .nameRef)
    {offset : Nat} (hstart : n.start < offset) (hstop : offset < n.stop) :
    view.destination? root offset = view.nameDestination? n := by
  obtain ⟨word, hchildren, hword⟩ := hn.nameRef hkind
  have htrivia : word.isTrivia = false := by
    simp only [List.mem_cons, List.not_mem_nil, or_false] at hword
    rcases hword with hw | hw | hw <;> simp [Source.Token.isTrivia, hw, Source.TokenKind.isTrivia]
  rw [destination?, Node.significantAt?_within h hchildren htrivia hstart hstop]
  simp only [Option.bind_eq_bind, Option.bind_some, hkind]

theorem exists_declaration_of_bind {index : Declarations} {found : Option Located}
    {target : Destination} (h : found.bind (Destination.ofDecl? index) = some target) :
    ∃ file full focus name, target = .declaration file full focus name := by
  obtain ⟨d, _, hd⟩ := Option.bind_eq_some_iff.1 h
  unfold Destination.ofDecl? at hd
  obtain ⟨file, _, hd⟩ := Option.bind_eq_some_iff.1 hd
  exact ⟨file, _, _, _, (Option.some.inj hd).symm⟩

theorem exists_chain?_of_imageFile? {target : Path} (h : view.imageFile? n = some target) :
    ∃ first second last, n.chain? = some [first, second, last] ∧ first.call = none ∧
      second.call = none ∧ last.call = none := by
  have hleaf : ∃ leaf, view.imageLeaf? n = some leaf := by
    cases hleaf : view.imageLeaf? n with
    | none => simp [imageFile?, hleaf] at h
    | some leaf => exact ⟨leaf, rfl⟩
  obtain ⟨leaf, hleaf⟩ := hleaf
  unfold imageLeaf? at hleaf
  split at hleaf
  · next first second last hchain =>
    obtain ⟨hform, _⟩ := Option.ite_none_right_eq_some.1 hleaf
    simp only [Bool.and_eq_true, Option.isNone_iff_eq_none] at hform
    exact ⟨first, second, last, hchain, hform.1.1.1, hform.1.1.2, hform.1.2⟩
  · cases hleaf

theorem imageFile?_chainRoot (hp : root.Within p) (htop : root.above = [])
    (hshape : ∀ m, root.Within m → m.WellShaped) (hc : n ∈ p.children)
    (hcont : p.continuesChain n = true) (hkind : n.kind ≠ .nameRef) {target : Path}
    (hn : view.imageFile? n = some target) : view.imageFile? p.chainRoot = none := by
  cases hroot : view.imageFile? p.chainRoot with
  | none => rfl
  | some other =>
    obtain ⟨first, second, last, hchain, hfirst, hsecond, hlast⟩ := exists_chain?_of_imageFile? hn
    obtain ⟨_, _, _, houter, h₁, h₂, h₃⟩ := exists_chain?_of_imageFile? hroot
    have hpkind := ((Node.continuesChain_iff hc).1 hcont).imp_right And.left
    obtain ⟨longer, hlonger, _, hweight⟩ := hp.chain?_chainRoot htop hshape hpkind houter
    obtain ⟨segments, hsegments, hextends⟩ := (hshape p hp).exists_extends hc hcont hkind hlonger
    obtain rfl := Option.some.inj (hchain.symm.trans hsegments)
    have hlt := hextends.weight_lt
    simp [Node.weight, h₁, h₂, h₃] at hweight
    simp [Node.weight, hfirst, hsecond, hlast] at hlt
    omega

theorem destination?_image (h : root.Within n) (htop : root.above = [])
    (hshape : ∀ m, root.Within m → m.WellShaped) (hkind : n.kind = .memberExpr) {target : Path}
    (hn : view.imageFile? n = some target) :
    ∃ before last, n.chain? = some (before ++ [last]) ∧
      ∀ offset, last.ref.start < offset → offset < last.ref.stop →
        (view.destination? root offset = some (.file target) ↔ n.Ends) := by
  obtain ⟨first, second, last, hchain, _⟩ := exists_chain?_of_imageFile? hn
  have hsplit : n.chain? = some ([first, second] ++ [last]) := hchain
  obtain ⟨hlast, href, hroot⟩ := h.last_of_chain? hshape hsplit
  refine ⟨[first, second], last, hsplit, fun offset hstart hstop => ?_⟩
  rw [destination?_within hlast (hshape _ hlast) href hstart hstop, nameDestination?, hroot]
  by_cases hends : n.Ends
  · rw [h.chainRoot_of_ends htop hends, hn]
    simp [hends]
  · obtain ⟨p, hp, hc, hcont, hup⟩ := h.exists_parent_of_not_ends htop hends
    have hname : n.kind ≠ .nameRef := by rw [hkind]; exact Source.NodeKind.noConfusion
    rw [hup, imageFile?_chainRoot hp htop hshape hc hcont hname hn]
    refine iff_of_false (fun hfile => ?_) hends
    dsimp only at hfile
    split at hfile
    · cases hfile
    · obtain ⟨_, _, _, _, hdecl⟩ := exists_declaration_of_bind hfile
      cases hdecl

structure ReadsKey (view : Viewpoint) (cls accessor : Segment) : Prop where
  recognized : view.project.recognized = true
  form : (cls.name == view.settings.localizationClass && cls.call.isNone &&
    view.isAccessor accessor) = true

theorem localizationRef?_of_chain? {cls accessor key : Segment} (h : view.ReadsKey cls accessor)
    (hn : n.chain? = some [cls, accessor, key]) :
    view.localizationRef? n = some ⟨key.name, key.call⟩ := by
  rw [localizationRef?, if_pos h.recognized, hn]
  dsimp only
  rw [if_pos h.form]

theorem exists_chain?_of_localizationRef? {ref : LocalizationRef}
    (h : view.localizationRef? n = some ref) :
    ∃ cls accessor key, n.chain? = some [cls, accessor, key] ∧ view.ReadsKey cls accessor ∧
      ref = ⟨key.name, key.call⟩ := by
  unfold localizationRef? at h
  obtain ⟨hrecognized, h⟩ := Option.ite_none_right_eq_some.1 h
  split at h
  · next cls accessor key hchain =>
    obtain ⟨hform, h⟩ := Option.ite_none_right_eq_some.1 h
    exact ⟨cls, accessor, key, hchain, ⟨hrecognized, hform⟩, (Option.some.inj h).symm⟩
  · cases h

/-- A key with a text of its own, and what stands for it. -/
structure Shows (view : Viewpoint) (n : Node) (cls accessor key : Segment) : Prop where
  chain : n.chain? = some [cls, accessor, key]
  reads : view.ReadsKey cls accessor
  template : (view.template? key.name).isSome = true

theorem exists_shows_of_localized? {text : String} (h : view.localized? n = some text) :
    ∃ cls accessor key, view.Shows n cls accessor key := by
  rw [localized?_eq] at h
  obtain ⟨ref, href, h⟩ := Option.bind_eq_some_iff.1 h
  obtain ⟨template, htemplate, _⟩ := Option.map_eq_some_iff.1 h
  obtain ⟨cls, accessor, key, hchain, hreads, rfl⟩ := exists_chain?_of_localizationRef? href
  exact ⟨cls, accessor, key, hchain, hreads, by rw [htemplate]; rfl⟩

theorem Shows.localized? {cls accessor key : Segment} (h : view.Shows n cls accessor key) :
    (view.localized? n).isSome = true := by
  obtain ⟨template, htemplate⟩ := Option.isSome_iff_exists.1 h.template
  rw [localized?_eq, localizationRef?_of_chain? h.reads h.chain, Option.bind_some, htemplate]
  rfl

theorem Shows.length_of_continues {cls accessor key : Segment} (h : view.Shows n cls accessor key)
    (hp : p.WellShaped) (hc : n ∈ p.children) (hcont : p.continuesChain n = true)
    (hkind : n.kind ≠ .nameRef) (houter : view.localized? p = none) {result : List Segment}
    (hresult : p.chain? = some result) : 4 ≤ result.length := by
  obtain ⟨segments, hsegments, hextends⟩ := hp.exists_extends hc hcont hkind hresult
  obtain rfl := Option.some.inj (h.chain.symm.trans hsegments)
  generalize hxs : [cls, accessor, key] = xs at hextends
  cases hextends with
  | member _ s _ => simp [← hxs]
  | call before last _ =>
    have hsplit : [cls, accessor] ++ [key] = before ++ [last] := hxs
    obtain ⟨rfl, hlast⟩ := List.append_inj' hsplit rfl
    obtain rfl := List.singleton_inj.1 hlast
    have hshows : view.Shows p cls accessor { key with call := some p } :=
      ⟨hresult, h.reads, h.template⟩
    have hsome := hshows.localized?
    rw [houter] at hsome
    cases hsome

theorem locateKey?_eq_none_of_length
    (hlength : ∀ segments, n.chain? = some segments → 4 ≤ segments.length) :
    view.locateKey? n = none := by
  have href : view.localizationRef? n = none := by
    cases href : view.localizationRef? n with
    | none => rfl
    | some ref =>
      obtain ⟨cls, accessor, key, hchain, _⟩ := exists_chain?_of_localizationRef? href
      exact absurd (hlength _ hchain) (by simp)
  simp [locateKey?, href]

theorem Shows.locateKey? {cls accessor key : Segment} (h : view.Shows n cls accessor key)
    {text : String} (htext : view.store.read? view.catalogPath = some text)
    {entries : List Placed} (hlaid : Laid text entries) {e : Placed} (he : e ∈ entries)
    (hkey : e.key = key.name.toList) :
    ∃ range, view.locateKey? n = some (view.catalogPath, range) := by
  have hfound : (entries.find? (·.key = key.name.toList)).isSome = true :=
    List.find?_isSome.2 ⟨e, he, by simpa using hkey⟩
  obtain ⟨first, hfirst⟩ := Option.isSome_iff_exists.1 hfound
  have hrange := Catalog.keyRange?_of_laid hlaid key.name
  rw [hfirst] at hrange
  exact ⟨first.range, by
    simp [Viewpoint.locateKey?, localizationRef?_of_chain? h.reads h.chain, htext, hrange]⟩

theorem Shows.locateKey?_chainRoot {cls accessor key : Segment}
    (h : view.Shows n cls accessor key) (hp : root.Within p) (htop : root.above = [])
    (hshape : ∀ m, root.Within m → m.WellShaped) (hc : n ∈ p.children)
    (hcont : p.continuesChain n = true) (hkind : n.kind ≠ .nameRef)
    (houter : view.localized? p = none) : view.locateKey? p.chainRoot = none := by
  have hpkind := ((Node.continuesChain_iff hc).1 hcont).imp_right And.left
  refine locateKey?_eq_none_of_length fun segments hsegments => ?_
  obtain ⟨shorter, hshorter, hlength, _⟩ := hp.chain?_chainRoot htop hshape hpkind hsegments
  have hfour := h.length_of_continues (hshape p hp) hc hcont hkind houter hshorter
  omega

theorem destination?_key (h : root.Within n) (htop : root.above = [])
    (hshape : ∀ m, root.Within m → m.WellShaped)
    (hkind : n.kind = .memberExpr ∨ n.kind = .callExpr) {shown : String}
    (hn : view.localized? n = some shown)
    (houter : ∀ p ∈ n.strictAncestors, p.kind = .memberExpr ∨ p.kind = .callExpr →
      view.localized? p = none) :
    ∃ before key, n.chain? = some (before ++ [key]) ∧
      ∀ text entries e, view.store.read? view.catalogPath = some text → Laid text entries →
        e ∈ entries → e.key = key.name.toList → view.imageFile? n = none →
        ∀ offset, key.ref.start < offset → offset < key.ref.stop →
          ((∃ range, view.destination? root offset = some (.fileRange view.catalogPath range)) ↔
            n.Ends) := by
  obtain ⟨cls, accessor, key, hshows⟩ := exists_shows_of_localized? hn
  have hsplit : n.chain? = some ([cls, accessor] ++ [key]) := hshows.chain
  obtain ⟨hlast, href, hroot⟩ := h.last_of_chain? hshape hsplit
  refine ⟨[cls, accessor], key, hsplit, ?_⟩
  intro text entries e htext hlaid he hkey himage offset hstart hstop
  rw [destination?_within hlast (hshape _ hlast) href hstart hstop, nameDestination?, hroot]
  by_cases hends : n.Ends
  · obtain ⟨range, hrange⟩ := hshows.locateKey? htext hlaid he hkey
    rw [h.chainRoot_of_ends htop hends, himage]
    dsimp only
    rw [hrange]
    exact iff_of_true ⟨range, rfl⟩ hends
  · obtain ⟨p, hp, hc, hcont, hup⟩ := h.exists_parent_of_not_ends htop hends
    have hpkind := ((Node.continuesChain_iff hc).1 hcont).imp_right And.left
    have hparent : p ∈ n.strictAncestors := by
      rw [Node.strictAncestors_of_mem_children hc]
      exact List.mem_cons_self
    have hname : n.kind ≠ .nameRef := by
      rcases hkind with hkind | hkind <;> rw [hkind] <;> exact Source.NodeKind.noConfusion
    have hnone := hshows.locateKey?_chainRoot hp htop hshape hc hcont hname
      (houter p hparent hpkind)
    rw [hup]
    refine iff_of_false (fun ⟨range, hrange⟩ => ?_) hends
    split at hrange
    · cases hrange
    · rw [hnone] at hrange
      obtain ⟨_, _, _, _, hdecl⟩ := exists_declaration_of_bind hrange
      cases hdecl

end Viewpoint

namespace Workspace

variable {w : Workspace}

theorem InSync.wellShaped_root (h : w.InSync) {file : FileId} {root : Node}
    (hroot : w.snapshot.root? file = some root) :
    root.above = [] ∧ ∀ n, root.Within n → n.WellShaped := by
  obtain ⟨text, _, rfl⟩ := h.text_of_root hroot
  exact ⟨rfl, fun _ hn => hn.wellShaped⟩

/-- A link leads to its image from within its last name, and a fold to its key from within the key,
if and only if nothing further is taken of the chain and it is not called. -/
theorem destination?_of_shown (h : w.InSync) (file : FileId) :
    (∀ link ∈ w.snapshot.links file, ∃ root n before last,
      w.snapshot.root? file = some root ∧ n ∈ root.descendants ∧ n.range = link.range ∧
      n.chain? = some (before ++ [last]) ∧
      ∀ offset, last.ref.start < offset → offset < last.ref.stop →
        (w.snapshot.destination? file offset = some (.file link.target) ↔ n.Ends)) ∧
    ∀ fold ∈ w.snapshot.folds file, ∃ root view n before key,
      w.snapshot.root? file = some root ∧ w.snapshot.viewpoint? file = some view ∧
      n ∈ root.descendants ∧ n.range = fold.range ∧ n.chain? = some (before ++ [key]) ∧
      ∀ text entries e, view.store.read? view.catalogPath = some text → Laid text entries →
        e ∈ entries → e.key = key.name.toList → view.imageFile? n = none →
        ∀ offset, key.ref.start < offset → offset < key.ref.stop →
          ((∃ range, w.snapshot.destination? file offset =
            some (.fileRange view.catalogPath range)) ↔ n.Ends) := by
  constructor
  · intro link hlink
    unfold Snapshot.links at hlink
    split at hlink
    · next lines root view _ hroot hview =>
      obtain ⟨htop, hshape⟩ := h.wellShaped_root hroot
      have hnothing : root.strictAncestors = [] := by
        rw [Node.strictAncestors, htop, Node.strictAncestorsIn]
      obtain ⟨n, hn, hfound, _⟩ :=
        Node.exists_of_mem_outermost hlink (by simp [hnothing])
      obtain ⟨hkind, hfound⟩ := Option.ite_none_right_eq_some.1 hfound
      obtain ⟨target, htarget, rfl⟩ := Option.map_eq_some_iff.1 hfound
      obtain ⟨before, last, hchain, hleads⟩ :=
        Viewpoint.destination?_image hn htop hshape hkind htarget
      refine ⟨_, n, before, last, hroot, Node.mem_descendants_iff.2 hn, rfl, hchain, ?_⟩
      intro offset hstart hstop
      rw [Snapshot.destination?, hroot, hview]
      exact hleads offset hstart hstop
    · cases hlink
  · intro fold hfold
    unfold Snapshot.folds at hfold
    split at hfold
    · next lines root view _ hroot hview =>
      obtain ⟨htop, hshape⟩ := h.wellShaped_root hroot
      have hnothing : root.strictAncestors = [] := by
        rw [Node.strictAncestors, htop, Node.strictAncestorsIn]
      obtain ⟨n, hn, hfound, houter⟩ :=
        Node.exists_of_mem_outermost hfold (by simp [hnothing])
      obtain ⟨hkind, hfound⟩ := Option.ite_none_right_eq_some.1 hfound
      obtain ⟨shown, hshown, rfl⟩ := Option.map_eq_some_iff.1 hfound
      have hnone p (hp : p ∈ n.strictAncestors)
          (hpkind : p.kind = .memberExpr ∨ p.kind = .callExpr) :
          view.localized? p = none := by
        have hfold := houter p hp
        rw [Viewpoint.fold?, if_pos hpkind] at hfold
        exact Option.map_eq_none_iff.1 hfold
      obtain ⟨before, key, hchain, hleads⟩ :=
        Viewpoint.destination?_key hn htop hshape hkind hshown hnone
      refine ⟨_, view, n, before, key, hroot, hview, Node.mem_descendants_iff.2 hn, rfl, hchain, ?_⟩
      intro text entries e htext hlaid he hkey himage offset hstart hstop
      rw [Snapshot.destination?, hroot, hview]
      exact hleads text entries e htext hlaid he hkey himage offset hstart hstop
    · cases hfold

theorem destination?_of_shown_at_end :
    let text :=
      r"class R { final i = I(); } class I { get xy => 'p'; } var b = R.i.xy, c = S.current.hi;"
    let w := ((((ofProject ⟨⟨"/a"⟩, .initial, true⟩).setFile ⟨"/a/m.dart"⟩ text).2.setFile
      ⟨"/a/lib/l10n/intl_en.arb"⟩ r#"{"hi":"A"}"#).2.addResource ⟨"/a/p"⟩).2
    w.InSync ∧
      (∃ link ∈ w.snapshot.links ⟨0⟩, ∃ root n, w.snapshot.root? ⟨0⟩ = some root ∧
        n ∈ root.descendants ∧ n.range = link.range ∧
        (w.snapshot.destination? ⟨0⟩ 67 = some (.file link.target) ↔ n.Ends)) ∧
      ∃ fold ∈ w.snapshot.folds ⟨0⟩, ∃ root view n, w.snapshot.root? ⟨0⟩ = some root ∧
        w.snapshot.viewpoint? ⟨0⟩ = some view ∧ n ∈ root.descendants ∧ n.range = fold.range ∧
        ((∃ range, w.snapshot.destination? ⟨0⟩ 85 =
          some (.fileRange view.catalogPath range)) ↔ n.Ends) := by
  intro text w
  obtain ⟨hlinks, hfolds, hnames, hview, hfresh⟩ :
      (w.snapshot.links ⟨0⟩).map Link.range = [⟨62, 68⟩] ∧
      (w.snapshot.folds ⟨0⟩).map Fold.range = [⟨74, 86⟩] ∧
      ((w.snapshot.root? ⟨0⟩).any fun root => root.descendants.all fun n =>
        (n.range ≠ ⟨62, 68⟩ || (n.chain?.bind List.getLast?).all fun s =>
          s.ref.start == 66 && s.ref.stop == 68) &&
        (n.range ≠ ⟨74, 86⟩ || (n.chain?.bind List.getLast?).all fun s =>
          s.ref.start == 84 && s.ref.stop == 86 && s.name == "hi" &&
            (w.snapshot.viewpoint? ⟨0⟩).any fun view => (view.imageFile? n).isNone)) = true ∧
      ((w.snapshot.viewpoint? ⟨0⟩).any fun view =>
        view.store.read? view.catalogPath = some r#"{"hi":"A"}"#) = true ∧
      (((ofProject ⟨⟨"/a"⟩, .initial, true⟩).setFile ⟨"/a/m.dart"⟩ text).2.setFile
        ⟨"/a/lib/l10n/intl_en.arb"⟩ r#"{"hi":"A"}"#).2.store.lookup? ⟨"/a/p"⟩ = none := by
    decide +kernel
  have hw : w.InSync := by
    refine (((inSync_ofProject _).act (.setFile _ _) trivial).act (.setFile _ _) trivial).act
      (.addResource _) fun file hfile => ?_
    cases hfresh.symm.trans hfile
  obtain ⟨hlink, hfold⟩ := destination?_of_shown hw ⟨0⟩
  obtain ⟨root, hroot, hnames⟩ := (Option.any_eq_true _ _).1 hnames
  refine ⟨hw, ?_, ?_⟩
  · obtain ⟨link, hlinks, hrange⟩ := List.map_eq_singleton_iff.1 hlinks
    have hmem : link ∈ w.snapshot.links ⟨0⟩ := by rw [hlinks]; exact List.mem_singleton_self _
    obtain ⟨other, n, before, last, hother, hn, hplace, hchain, hleads⟩ := hlink link hmem
    obtain rfl := Option.some.inj (hroot.symm.trans hother)
    have hlast := List.all_eq_true.1 hnames n hn
    simp [hplace, hrange, hchain] at hlast
    exact ⟨link, hmem, root, n, hroot, hn, hplace, hleads 67 (by omega) (by omega)⟩
  · obtain ⟨fold, hfolds, hrange⟩ := List.map_eq_singleton_iff.1 hfolds
    have hmem : fold ∈ w.snapshot.folds ⟨0⟩ := by rw [hfolds]; exact List.mem_singleton_self _
    obtain ⟨other, view, n, before, key, hother, hview', hn, hplace, hchain, hleads⟩ :=
      hfold fold hmem
    obtain rfl := Option.some.inj (hroot.symm.trans hother)
    have hkey := List.all_eq_true.1 hnames n hn
    simp [hplace, hrange, hchain, hview'] at hkey
    rw [hview'] at hview
    have hvalue : Json.Element (.string ['A']) ['"', 'A', '"'] :=
      @Json.Element.mk [] _ [] _ Json.blank_nil
        (.string (.plain (by decide) (by decide) (by decide) .nil)) Json.blank_nil
    have hentry := @Json.Member.mk 1 [] ['h', 'i'] [] _ _ Json.blank_nil
      (.plain (by decide) (by decide) (by decide)
        (.plain (by decide) (by decide) (by decide) .nil)) Json.blank_nil hvalue
    have hlaid : Laid r#"{"hi":"A"}"# [⟨1, ['h', 'i'], .string ['A']⟩] :=
      ⟨[], _, [], Json.blank_nil, Json.blank_nil, rfl, .inr (.one hentry)⟩
    have hspelled : ['h', 'i'] = key.name.toList := by rw [hkey.1.2]; rfl
    exact ⟨fold, hmem, root, view, n, hroot, hview', hn, hplace, hleads _ _ _ (by simpa using hview)
      hlaid (List.mem_singleton_self _) hspelled hkey.2 85 (by omega) (by omega)⟩

theorem destination?_of_shown_within_longer :
    let folded := (((ofProject ⟨⟨"/a"⟩, .initial, true⟩).setFile ⟨"/a/m.dart"⟩
      "var b = S.current.hi.length;").2.setFile ⟨"/a/lib/l10n/intl_en.arb"⟩
      r#"{"hi":"A"}"#).2
    let linked := ((ofProject ⟨⟨"/a"⟩, .initial, true⟩).setFile ⟨"/a/m.dart"⟩
      r"class R { final i = I(); } class I { get xy => 'p'; } var b = R.i.xy.path;").2
    let held := (linked.addResource ⟨"/a/p"⟩).2
    folded.InSync ∧ (folded.snapshot.folds ⟨0⟩).map Fold.range = [⟨8, 20⟩] ∧
      folded.snapshot.destination? ⟨0⟩ 19 = none ∧
      held.InSync ∧
      (held.snapshot.links ⟨0⟩).map (fun l => (l.range, l.target)) = [(⟨62, 68⟩, ⟨"/a/p"⟩)] ∧
      held.snapshot.destination? ⟨0⟩ 67 ≠ some (.file ⟨"/a/p"⟩) := by
  intro folded linked held
  have hfresh : linked.store.lookup? ⟨"/a/p"⟩ = none := by decide +kernel
  have hheld : held.InSync := by
    refine ((inSync_ofProject _).act (.setFile _ _) trivial).act (.addResource _)
      fun file hfile => ?_
    cases hfresh.symm.trans hfile
  obtain ⟨hfolds, hgone⟩ : (folded.snapshot.folds ⟨0⟩).map Fold.range = [⟨8, 20⟩] ∧
      folded.snapshot.destination? ⟨0⟩ 19 = none := by decide +kernel
  obtain ⟨hlinks, helsewhere⟩ :
      (held.snapshot.links ⟨0⟩).map (fun l => (l.range, l.target)) = [(⟨62, 68⟩, ⟨"/a/p"⟩)] ∧
      held.snapshot.destination? ⟨0⟩ 67 ≠ some (.file ⟨"/a/p"⟩) := by decide +kernel
  have hfolded : folded.InSync :=
    ((inSync_ofProject _).act (.setFile _ _) trivial).act (.setFile _ _) trivial
  exact ⟨hfolded, hfolds, hgone, hheld, hlinks, helsewhere⟩

end Workspace

end CrossReference
