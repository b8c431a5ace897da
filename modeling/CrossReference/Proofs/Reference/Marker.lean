import CrossReference.Proofs.Reference.Navigation

/-!
The folds of a file are the outermost chains that stand for a text, and its links are all chains
that stand for an image: images are never within each other.
-/

namespace CrossReference

open Source (Node Segment Token)
open Text (Range LineTable)

structure Text.Disjoint (ranges : List Range) : Prop where
  nonempty : ∀ range ∈ ranges, range.start < range.stop
  ordered : ranges.Pairwise fun a b => a.stop ≤ b.start

namespace Source.Node

variable {n c m : Node} {segments : List Segment}

theorem WellShaped.cases_of_uncalled (h : n.WellShaped) (hn : n.chain? = some segments)
    (hcalls : ∀ s ∈ segments, s.call = none) :
    n.children = [] ∨ ∃ object member init last, n.children = [object, member] ∧
      member.kind = .nameRef ∧ object.chain? = some init ∧ segments = init ++ [last] := by
  rcases kind_of_chain? hn with hkind | hkind | hkind
  · exact .inl (h.children_of_nameRef hkind)
  · obtain ⟨object, member, init, last, hchildren, href, hinit, _, rfl⟩ := h.read_member hkind hn
    exact .inr ⟨object, member, init, last, hchildren, href, hinit, rfl⟩
  · obtain ⟨_, before, last, _, _, _, _, rfl⟩ := h.read_call hkind hn
    have hcall := hcalls { last with call := some n } (by simp)
    cases hcall

theorem exists_shorter_chain (hshape : ∀ m, Within n m → m.WellShaped)
    (hn : n.chain? = some segments) (hcalls : ∀ s ∈ segments, s.call = none)
    (hc : c ∈ n.children) (hm : Within c m) (hkind : m.kind = .memberExpr) :
    ∃ shorter, m.chain? = some shorter ∧ shorter.length < segments.length := by
  induction hd : n.depth using Nat.strongRecOn generalizing n c segments with
  | _ d ih =>
    have hwithin : Within n c := Within.root.child hc
    obtain hnil | ⟨object, member, init, last, hchildren, href, hinit, rfl⟩ :=
      (hshape n .root).cases_of_uncalled hn hcalls
    · rw [hnil] at hc
      cases hc
    · rw [hchildren] at hc
      have hlength : init.length < (init ++ [last]).length := by simp
      have hbelow := eq_or_exists_child hm
      rcases List.mem_cons.1 hc with rfl | hc
      · rcases hbelow with rfl | ⟨k, hk, hkm⟩
        · exact ⟨init, hinit, hlength⟩
        · have hdepth : c.depth < n.depth :=
            depth_lt_of_mem_children (hchildren ▸ List.mem_cons_self)
          obtain ⟨shorter, hshorter, hlt⟩ := ih _ (hd ▸ hdepth)
            (fun m hm => hshape m (hwithin.trans hm)) hinit
            (fun s hs => hcalls s (List.mem_append_left _ hs)) hk hkm rfl
          exact ⟨shorter, hshorter, Nat.lt_trans hlt hlength⟩
      · -- The last name is no chain and holds none.
        obtain rfl := List.mem_singleton.1 hc
        rcases hbelow with rfl | ⟨k, hk, _⟩
        · rw [href] at hkind
          cases hkind
        · rw [(hshape c hwithin).children_of_nameRef href] at hk
          cases hk

theorem Within.start_lt_stop_of_chain? {text : String} (h : (parse text).root.Within n)
    (hn : n.chain? = some segments) (hne : segments ≠ []) : n.start < n.stop := by
  rw [← List.dropLast_append_getLast hne] at hn
  obtain ⟨hlast, href, _⟩ :=
    Within.root.last_of_chain? (fun m hm => (h.trans hm).wellShaped) hn
  obtain ⟨hstart, hstop⟩ := range_of_within hlast
  have hname := (h.trans hlast).start_lt_stop href
  omega

end Source.Node

namespace Viewpoint

variable {view : Viewpoint} {root n p : Node}

def isFoldable (view : Viewpoint) (n : Node) : Bool :=
  (n.kind == .memberExpr || n.kind == .callExpr) && (view.localized? n).isSome

def isFolded (view : Viewpoint) (n : Node) : Bool :=
  view.isFoldable n && n.strictAncestors.all (!view.isFoldable ·)

def isLinked (view : Viewpoint) (n : Node) : Bool :=
  n.kind == .memberExpr && (view.imageFile? n).isSome

theorem map_fold? (view : Viewpoint) (lines : LineTable) (n : Node) :
    (view.fold? lines n).map (fun fold => (fold.range, some fold.placeholder)) =
      if view.isFoldable n then some (n.range, view.localized? n) else none := by
  rw [fold?, isFoldable]
  by_cases hkind : n.kind = .memberExpr ∨ n.kind = .callExpr
  · cases hshown : view.localized? n <;> simp [hkind]
  · have hother : (n.kind == .memberExpr || n.kind == .callExpr) = false := by simpa using hkind
    simp [hkind, hother]

theorem map_link? (view : Viewpoint) (lines : LineTable) (n : Node) :
    (view.link? lines n).map (fun link => (link.range, some link.target)) =
      if view.isLinked n then some (n.range, view.imageFile? n) else none := by
  rw [link?, isLinked]
  by_cases hkind : n.kind = .memberExpr
  · cases htarget : view.imageFile? n <;> simp [hkind]
  · simp [hkind]

theorem exists_names_of_isLinked (h : view.isLinked n = true) : n.kind = .memberExpr ∧
    ∃ segments, n.chain? = some segments ∧ segments.length = 3 ∧
      ∀ s ∈ segments, s.call = none := by
  rw [isLinked, Bool.and_eq_true, beq_iff_eq, Option.isSome_iff_exists] at h
  obtain ⟨hkind, target, htarget⟩ := h
  obtain ⟨first, second, last, hchain, hcalls⟩ := exists_chain?_of_imageFile? htarget
  exact ⟨hkind, _, hchain, rfl, by simpa using hcalls⟩

theorem not_isLinked_of_mem_strictAncestors (htop : root.above = [])
    (hshape : ∀ m, root.Within m → m.WellShaped) (hn : root.Within n)
    (hlinked : view.isLinked n = true) (hp : p ∈ n.strictAncestors) :
    view.isLinked p = false := by
  obtain ⟨c, hc, hcn⟩ := Node.exists_child_of_mem_strictAncestors hn htop hp
  have hwithin : root.Within p := hn.strictAncestor htop p hp
  rw [← Bool.not_eq_true]
  intro houter
  obtain ⟨_, names, hnames, hthree, hcalls⟩ := exists_names_of_isLinked houter
  obtain ⟨hkind, inner, hinner, hinnerThree, _⟩ := exists_names_of_isLinked hlinked
  obtain ⟨shorter, hshorter, hlt⟩ := Node.exists_shorter_chain
    (fun m hm => hshape m (hwithin.trans hm)) hnames hcalls hc hcn hkind
  obtain rfl := Option.some.inj (hinner.symm.trans hshorter)
  omega

theorem isFolded_of_mem_strictAncestors (hn : view.isFolded n = true)
    (hp : p ∈ n.strictAncestors) : view.isFolded p = false := by
  have houter := List.all_eq_true.1 (Bool.and_eq_true_iff.1 hn).2 p hp
  rw [Bool.not_eq_true'] at houter
  rw [isFolded, houter, Bool.false_and]

theorem disjoint_of_not_nested {p : Node → Bool}
    (hnonempty : ∀ n, root.Within n → p n = true → n.start < n.stop)
    (hnested : ∀ n, root.Within n → p n = true → ∀ q ∈ n.strictAncestors, p q = false) :
    Text.Disjoint ((root.descendants.filter p).map Node.range) where
  nonempty range hrange := by
    obtain ⟨n, hn, rfl⟩ := List.mem_map.1 hrange
    obtain ⟨hn, hp⟩ := List.mem_filter.1 hn
    exact hnonempty n (Node.mem_descendants_iff.1 hn) hp
  ordered := by
    rw [List.pairwise_map]
    apply Node.pairwise_of_not_nested List.filter_sublist
    intro n hn q hq hmem
    obtain ⟨hn, hp⟩ := List.mem_filter.1 hn
    have hnone := hnested n (Node.mem_descendants_iff.1 hn) hp q hq
    rw [(List.mem_filter.1 hmem).2] at hnone
    cases hnone

section Parsed

variable {text : String}

theorem start_lt_stop_of_isFoldable (hn : (Source.parse text).root.Within n)
    (h : view.isFoldable n = true) : n.start < n.stop := by
  rw [isFoldable, Bool.and_eq_true, Bool.or_eq_true, beq_iff_eq, beq_iff_eq,
    Option.isSome_iff_exists] at h
  obtain ⟨_, shown, hshown⟩ := h
  obtain ⟨cls, accessor, key, hshows⟩ := exists_shows_of_localized? hshown
  exact hn.start_lt_stop_of_chain? hshows.chain (List.cons_ne_nil _ _)

theorem start_lt_stop_of_isLinked (hn : (Source.parse text).root.Within n)
    (h : view.isLinked n = true) : n.start < n.stop := by
  obtain ⟨_, names, hnames, hthree, _⟩ := exists_names_of_isLinked h
  refine hn.start_lt_stop_of_chain? hnames ?_
  rintro rfl
  cases hthree

theorem not_nested_isLinked (hn : (Source.parse text).root.Within n)
    (hlinked : view.isLinked n = true) (hp : p ∈ n.strictAncestors) : view.isLinked p = false :=
  not_isLinked_of_mem_strictAncestors rfl (fun _ hm => hm.wellShaped) hn hlinked hp

theorem folds_described (view : Viewpoint) (text : String) (lines : LineTable) :
    (view.folds (Source.parse text).root lines).map
        (fun fold => (fold.range, some fold.placeholder)) =
      ((Source.parse text).root.descendants.filter view.isFolded).map
        (fun n => (n.range, view.localized? n)) :=
  Node.map_outermost (view.map_fold? lines) (Node.uncovered_of_top rfl)

theorem links_described (view : Viewpoint) (text : String) (lines : LineTable) :
    (view.links (Source.parse text).root lines).map (fun link => (link.range, some link.target)) =
      ((Source.parse text).root.descendants.filter view.isLinked).map
        (fun n => (n.range, view.imageFile? n)) :=
  Node.map_outermost_of_not_nested (view.map_link? lines) (Node.uncovered_of_top rfl)
    fun _ hn hlinked _ hp => not_nested_isLinked hn hlinked hp

theorem disjoint_folds (view : Viewpoint) (text : String) (lines : LineTable) :
    Text.Disjoint ((view.folds (Source.parse text).root lines).map Fold.range) := by
  have hsame : (view.folds (Source.parse text).root lines).map Fold.range =
      ((Source.parse text).root.descendants.filter view.isFolded).map Node.range := by
    have hranges := congrArg (List.map Prod.fst) (folds_described view text lines)
    rwa [List.map_map, List.map_map] at hranges
  rw [hsame]
  apply disjoint_of_not_nested
  · intro n hn h
    exact start_lt_stop_of_isFoldable hn (Bool.and_eq_true_iff.1 h).1
  · intro n _ h p hp
    exact isFolded_of_mem_strictAncestors h hp

theorem disjoint_links (view : Viewpoint) (text : String) (lines : LineTable) :
    Text.Disjoint ((view.links (Source.parse text).root lines).map Link.range) := by
  have hsame : (view.links (Source.parse text).root lines).map Link.range =
      ((Source.parse text).root.descendants.filter view.isLinked).map Node.range := by
    have hranges := congrArg (List.map Prod.fst) (links_described view text lines)
    rwa [List.map_map, List.map_map] at hranges
  rw [hsame]
  apply disjoint_of_not_nested
  · intro n hn h
    exact start_lt_stop_of_isLinked hn h
  · intro n hn h p hp
    exact not_nested_isLinked hn h hp

end Parsed

theorem folds_and_links_outermost (view : Viewpoint) (text : String) (lines : LineTable) :
    let root := (Source.parse text).root
    let folds := view.folds root lines
    let links := view.links root lines
    folds.map (fun fold => (fold.range, some fold.placeholder)) =
        (root.descendants.filter view.isFolded).map (fun n => (n.range, view.localized? n)) ∧
      Text.Disjoint (folds.map Fold.range) ∧
      links.map (fun link => (link.range, some link.target)) =
        (root.descendants.filter view.isLinked).map (fun n => (n.range, view.imageFile? n)) ∧
      Text.Disjoint (links.map Link.range) ∧
      ∀ n ∈ root.descendants, view.isLinked n = true →
        ∀ p ∈ n.strictAncestors, view.isLinked p = false := by
  intro root folds links
  refine ⟨folds_described view text lines, disjoint_folds view text lines,
    links_described view text lines, disjoint_links view text lines, ?_⟩
  intro n hn hlinked p hp
  exact not_nested_isLinked (Node.mem_descendants_iff.1 hn) hlinked hp

example :
    let store := (FileStore.empty.insert ⟨"/app/lib/l10n/intl_en.arb"⟩
      r#"{"hi": "Hi {a}", "who": "Ann"}"#).2
    let view : Viewpoint := ⟨⟨⟨"/app"⟩, .initial, true⟩, store, .empty, ⟨1⟩, ⟨"/app/lib/a.dart"⟩⟩
    let text := "final x = S.current.hi(S.current.who).length;"
    let folds := view.folds (Source.parse text).root (LineTable.ofText text)
    folds.map (fun fold => (fold.range, fold.placeholder)) = [(⟨10, 37⟩, "Hi Ann")] := by
  decide +kernel

end Viewpoint

end CrossReference
