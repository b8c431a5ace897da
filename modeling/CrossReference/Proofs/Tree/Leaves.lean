import CrossReference.Proofs.Tree.Within
import CrossReference.Reference.Destination
import Mathlib.Data.List.Basic

namespace CrossReference.Source.Node

variable {root n c : Node}

theorem leavesAll_append (p : Node) (start index : Nat) (ts us : List Tree) :
    leavesAll p start index (ts ++ us) =
      leavesAll p start index ts ++
        leavesAll p (start + Tree.sizeAll ts) (index + ts.length) us := by
  induction ts generalizing start index with
  | nil => rfl
  | cons t ts ih =>
    rw [List.cons_append, leavesAll, leavesAll, ih, List.append_assoc, Tree.sizeAll,
      List.length_cons, Nat.add_assoc, Nat.add_assoc, Nat.add_comm 1]

def Among (start stop : Nat) (leaves : List Leaf) : Prop :=
  ∀ l ∈ leaves, start ≤ l.start ∧ l.stop ≤ stop

mutual

theorem among_leavesIn (p : Node) (start index : Nat) :
    (t : Tree) → Among start (start + t.size) (leavesIn p start index t)
  | .node kind children => among_leavesAll _ start 0 children
  | .leaf token => by
    intro l hl
    obtain rfl := List.mem_singleton.1 hl
    exact ⟨Nat.le_refl _, Nat.le_refl _⟩

theorem among_leavesAll (p : Node) (start index : Nat) :
    (ts : List Tree) → Among start (start + Tree.sizeAll ts) (leavesAll p start index ts)
  | [] => fun _ hl => absurd hl List.not_mem_nil
  | t :: ts => by
    intro l hl
    rw [Tree.sizeAll]
    rcases List.mem_append.1 hl with hl | hl
    · obtain ⟨hstart, hstop⟩ := among_leavesIn p start index t l hl
      exact ⟨hstart, by omega⟩
    · obtain ⟨hstart, hstop⟩ := among_leavesAll p (start + t.size) (index + 1) ts l hl
      exact ⟨by omega, by omega⟩

end

structure LeavesAt (root n : Node) (before after : List Leaf) : Prop where
  split : root.leaves = before ++ n.leaves ++ after
  before : ∀ l ∈ before, l.stop ≤ n.start
  after : ∀ l ∈ after, n.stop ≤ l.start

theorem exists_leavesAt_of_mem_children (h : c ∈ n.children) :
    ∃ before after, LeavesAt n c before after := by
  obtain ⟨pre, post, hc⟩ := exists_childAt h
  have hleaves : leavesIn n c.start c.here.index c.tree = c.leaves := by
    rw [tree, leavesIn, leaves, ← hc.above]
    rfl
  have hstart : n.start + Tree.sizeAll pre = c.start := hc.start.symm
  have hindex : 0 + pre.length = c.here.index := hc.index.symm
  refine ⟨leavesAll n n.start 0 pre,
    leavesAll n (c.start + c.tree.size) (c.here.index + 1) post, ?_, ?_, ?_⟩
  · rw [leaves, hc.split, leavesAll_append, leavesAll, hstart, hindex, hleaves, List.append_assoc]
  · intro l hl
    exact hstart ▸ (among_leavesAll n n.start 0 pre l hl).2
  · intro l hl
    exact (among_leavesAll n _ _ post l hl).1

theorem exists_leavesAt (h : Within root n) : ∃ before after, LeavesAt root n before after := by
  induction h with
  | root => exact ⟨[], [], by simp, by simp, by simp⟩
  | @child n c _ hc ih =>
    obtain ⟨before, after, hn⟩ := ih
    obtain ⟨pre, post, hchild⟩ := exists_leavesAt_of_mem_children hc
    obtain ⟨hstart, hstop⟩ := range_of_mem_children hc
    refine ⟨before ++ pre, post ++ after, ?_, ?_, ?_⟩
    · rw [hn.split, hchild.split]
      simp
    · intro l hl
      rcases List.mem_append.1 hl with hl | hl
      · exact Nat.le_trans (hn.before l hl) hstart
      · exact hchild.before l hl
    · intro l hl
      rcases List.mem_append.1 hl with hl | hl
      · exact hchild.after l hl
      · exact Nat.le_trans hstop (hn.after l hl)

theorem significantAt?_within (h : Within root n) {word : Token}
    (hn : n.here.children = [.leaf word]) (hword : word.isTrivia = false) {offset : Nat}
    (hstart : n.start < offset) (hstop : offset < n.stop) :
    root.significantAt? offset = some ⟨word, n.start, n⟩ := by
  obtain ⟨before, after, hat⟩ := exists_leavesAt h
  have hleaves : n.leaves = [⟨word, n.start, n⟩] := by rw [leaves, hn, leavesAll, leavesIn]; rfl
  have hlast : n.start + word.size = n.stop := by
    rw [stop, hn, Tree.sizeAll, Tree.size]
    rfl
  have hone : root.leavesAt offset = [⟨word, n.start, n⟩] := by
    have hbefore : before.filter (fun l => l.start ≤ offset && offset ≤ l.stop) = [] := by
      rw [List.filter_eq_nil_iff]
      intro l hl
      have := hat.before l hl
      simp only [Bool.and_eq_true, decide_eq_true_eq]
      omega
    have hafter : after.filter (fun l => l.start ≤ offset && offset ≤ l.stop) = [] := by
      rw [List.filter_eq_nil_iff]
      intro l hl
      have := hat.after l hl
      simp only [Bool.and_eq_true, decide_eq_true_eq]
      omega
    have hself : offset ≤ (Leaf.mk word n.start n).stop := by
      rw [Leaf.stop, hlast]
      omega
    rw [leavesAt, hat.split, List.filter_append, List.filter_append, hbefore, hafter, hleaves]
    simp [hself, Nat.le_of_lt hstart]
  rw [significantAt?, hone]
  simp [hword]

theorem range_of_within (h : Within n c) : n.start ≤ c.start ∧ c.stop ≤ n.stop := by
  induction h with
  | root => exact ⟨Nat.le_refl _, Nat.le_refl _⟩
  | child _ hc ih =>
    obtain ⟨hstart, hstop⟩ := range_of_mem_children hc
    exact ⟨Nat.le_trans ih.1 hstart, Nat.le_trans hstop ih.2⟩

theorem mem_strictAncestors_of_within {m : Node} (hc : c ∈ n.children) (h : Within c m) :
    n ∈ m.strictAncestors := by
  induction h with
  | root =>
    rw [strictAncestors_of_mem_children hc]
    exact List.mem_cons_self
  | child _ hm ih =>
    rw [strictAncestors_of_mem_children hm]
    exact List.mem_cons_of_mem _ ih

theorem exists_child_of_mem_strictAncestors (h : Within root n) (htop : root.above = [])
    {p : Node} (hp : p ∈ n.strictAncestors) : ∃ c ∈ p.children, Within c n := by
  induction h with
  | root =>
    rw [strictAncestors, htop] at hp
    cases hp
  | @child q n _ hn ih =>
    rw [strictAncestors_of_mem_children hn] at hp
    rcases List.mem_cons.1 hp with rfl | hp
    · exact ⟨n, hn, .root⟩
    · obtain ⟨c, hc, hwithin⟩ := ih hp
      exact ⟨c, hc, hwithin.child hn⟩

theorem eq_or_exists_child (h : Within root n) : n = root ∨ ∃ c ∈ root.children, Within c n := by
  rw [← mem_descendants_iff, descendants_eq, List.mem_cons, List.mem_flatMap] at h
  simpa only [mem_descendants_iff] using h

theorem pairwise_childrenFrom (above : List Level) (start index : Nat) (ts : List Tree) :
    (childrenFrom above start index ts).Pairwise fun a b => a.stop ≤ b.start := by
  induction ts generalizing start index with
  | nil => exact .nil
  | cons t ts ih =>
    cases t with
    | leaf token => exact ih _ _
    | node kind children =>
      refine .cons (fun c hc => ?_) (ih _ _)
      obtain ⟨before, after, hat⟩ := exists_childAt hc
      rw [hat.start]
      exact Nat.le_add_right _ _

theorem pairwise_descendants (n : Node) :
    n.descendants.Pairwise fun a b => a ∈ b.strictAncestors ∨ a.stop ≤ b.start := by
  induction hd : n.depth using Nat.strongRecOn generalizing n with
  | _ d ih =>
    rw [descendants_eq]
    apply List.Pairwise.cons
    · intro m hm
      obtain ⟨c, hc, hm⟩ := List.mem_flatMap.1 hm
      exact .inl (mem_strictAncestors_of_within hc (mem_descendants_iff.1 hm))
    · apply List.pairwise_flatMap.2
      refine ⟨fun c hc => ih _ (hd ▸ depth_lt_of_mem_children hc) c rfl, ?_⟩
      refine (pairwise_childrenFrom ..).imp fun {a b} hab x hx y hy => .inr ?_
      calc x.stop
        _ ≤ a.stop := (range_of_within (mem_descendants_iff.1 hx)).2
        _ ≤ b.start := hab
        _ ≤ y.start := (range_of_within (mem_descendants_iff.1 hy)).1

theorem pairwise_of_not_nested {nodes : List Node} (hsub : nodes.Sublist root.descendants)
    (h : ∀ n ∈ nodes, ∀ p ∈ n.strictAncestors, p ∉ nodes) :
    nodes.Pairwise fun a b => a.stop ≤ b.start := by
  refine ((pairwise_descendants root).sublist hsub).imp_of_mem fun {a b} ha hb hab => ?_
  rcases hab with haround | hbefore
  · exact absurd ha (h b hb a haround)
  · exact hbefore

section Outermost

variable {α : Type} {f : Node → Option α} {a : α}

theorem outermostAll_eq (f : Node → Option α) (above : List Level) (start index : Nat)
    (ts : List Tree) :
    outermostAll f above start index ts =
      (childrenFrom above start index ts).flatMap (outermost f) := by
  induction ts generalizing start index with
  | nil => rfl
  | cons t ts ih =>
    cases t with
    | leaf token =>
      rw [outermostAll, outermostIn, ih, childrenFrom]
      rfl
    | node kind children =>
      rw [outermostAll, ih, childrenFrom, List.flatMap_cons]
      rfl

def Uncovered (f : Node → Option α) (n : Node) : Prop := ∀ p ∈ n.strictAncestors, f p = none

theorem uncovered_of_top (h : n.above = []) : n.Uncovered f := by
  intro p hp
  rw [strictAncestors, h] at hp
  cases hp

theorem Uncovered.child (h : n.Uncovered f) (hn : f n = none) (hc : c ∈ n.children) :
    c.Uncovered f := by
  rw [Uncovered, strictAncestors_of_mem_children hc]
  exact List.forall_mem_cons.2 ⟨hn, h⟩

instance (f : Node → Option α) (n : Node) : Decidable (n.Uncovered f) :=
  inferInstanceAs (Decidable (∀ p ∈ n.strictAncestors, f p = none))

theorem outermost_eq (h : n.Uncovered f) :
    n.outermost f = (n.descendants.filter (·.Uncovered f)).filterMap f := by
  induction hd : n.depth using Nat.strongRecOn generalizing n with
  | _ d ih =>
    rw [outermost, descendants_eq, List.filter_cons_of_pos (by simpa using h), List.filterMap_cons]
    cases hn : f n with
    | some found =>
      -- Whatever lies below is covered by the node itself.
      have hnone : (n.children.flatMap descendants).filter (·.Uncovered f) = [] := by
        rw [List.filter_eq_nil_iff]
        intro m hm huncovered
        obtain ⟨c, hc, hm⟩ := List.mem_flatMap.1 hm
        have hancestor := mem_strictAncestors_of_within hc (mem_descendants_iff.1 hm)
        have hnothing := (of_decide_eq_true huncovered) n hancestor
        rw [hn] at hnothing
        cases hnothing
      dsimp only
      rw [hnone, List.filterMap_nil]
    | none =>
      dsimp only
      rw [outermostAll_eq, List.filter_flatMap, List.filterMap_flatMap]
      apply List.flatMap_congr
      intro c hc
      exact ih _ (hd ▸ depth_lt_of_mem_children hc) (h.child hn hc) rfl

theorem map_outermost {β : Type} {p : Node → Bool} {g : α → β} {describe : Node → β}
    (hf : ∀ m, (f m).map g = if p m then some (describe m) else none) (h : n.Uncovered f) :
    (n.outermost f).map g =
      (n.descendants.filter fun m => p m && m.strictAncestors.all (!p ·)).map describe := by
  have hnone (m : Node) : f m = none ↔ p m = false := by
    rw [← Option.map_eq_none_iff (f := g), hf]
    cases p m <;> simp
  have huncovered (m : Node) :
      decide (m.Uncovered f) = m.strictAncestors.all (!p ·) := by
    rw [Bool.eq_iff_iff]
    simp [Uncovered, hnone]
  rw [outermost_eq h, List.map_filterMap, List.filterMap_filter, ← List.filterMap_eq_map,
    List.filterMap_filter]
  congr 1
  funext m
  rw [huncovered, hf, Bool.and_comm]
  cases m.strictAncestors.all (!p ·) <;> rfl

theorem map_outermost_of_not_nested {β : Type} {p : Node → Bool} {g : α → β} {describe : Node → β}
    (hf : ∀ m, (f m).map g = if p m then some (describe m) else none) (h : n.Uncovered f)
    (hnested : ∀ m, Within n m → p m = true → ∀ q ∈ m.strictAncestors, p q = false) :
    (n.outermost f).map g = (n.descendants.filter p).map describe := by
  have hsame : n.descendants.filter (fun m => p m && m.strictAncestors.all (!p ·)) =
      n.descendants.filter p := by
    apply List.filter_congr
    intro m hm
    cases hfound : p m with
    | false => rfl
    | true => simpa using hnested m (mem_descendants_iff.1 hm) hfound
  rw [map_outermost hf h, hsame]

theorem exists_of_mem_outermost (h : a ∈ n.outermost f)
    (habove : ∀ p ∈ n.strictAncestors, f p = none) :
    ∃ m, Within n m ∧ f m = some a ∧ ∀ p ∈ m.strictAncestors, f p = none := by
  rw [outermost_eq habove] at h
  obtain ⟨m, hm, hfound⟩ := List.mem_filterMap.1 h
  obtain ⟨hm, huncovered⟩ := List.mem_filter.1 hm
  exact ⟨m, mem_descendants_iff.1 hm, hfound, of_decide_eq_true huncovered⟩

end Outermost

end CrossReference.Source.Node
