import CrossReference.Proofs.Reference.Route
import CrossReference.Proofs.Workspace.Snapshot

namespace CrossReference

open Source (Node Token)
open Text (Range)

namespace Text

def Range.Inside (inner outer : Range) : Prop :=
  outer.start ≤ inner.start ∧ inner.start ≤ inner.stop ∧ inner.stop ≤ outer.stop

def Reads (text : String) (range : Range) (piece : String) : Prop :=
  ∃ before after, text = before ++ piece ++ after ∧
    range.start = before.utf8ByteSize ∧ range.stop = range.start + piece.utf8ByteSize

end Text

namespace Source

namespace Node

variable {text : String} {n c : Node}

theorem Within.reads (h : (parse text).root.Within n) : Text.Reads text n.range n.text := by
  obtain ⟨before, after, htokens, hstart⟩ := h.slice
  have hscan := tokens_root_parse text
  refine ⟨spelling before, spelling after, ?_, ?_, ?_⟩
  · rw [Node.text, Tree.text, ← spelling_append, ← spelling_append, ← htokens, hscan,
      Token.spelling_scan]
  · rw [utf8ByteSize_spelling]
    exact hstart.trans (Nat.zero_add _)
  · rw [Node.text, Tree.text, utf8ByteSize_spelling, range, stop, Tree.sizeAll_eq]
    rfl

theorem Within.inside (h : (parse text).root.Within n) :
    n.range.Inside ⟨0, text.utf8ByteSize⟩ := by
  obtain ⟨before, after, htext, hstart, hstop⟩ := h.reads
  refine ⟨Nat.zero_le _, Nat.le_add_right _ _, ?_⟩
  show n.range.stop ≤ text.utf8ByteSize
  rw [htext, String.utf8ByteSize_append, String.utf8ByteSize_append]
  omega

theorem range_inside_of_mem_children (h : c ∈ n.children) : c.range.Inside n.range := by
  obtain ⟨hstart, hstop⟩ := range_of_mem_children h
  exact ⟨hstart, Nat.le_add_right _ _, hstop⟩

theorem Within.regular_parse (h : (parse text).root.Within n) : n.tree.Regular :=
  h.regular (Parse.regular_tree _)

theorem name_of_child? (hn : n.tree.Regular) (hkind : n.kind ≠ .constructorDecl)
    (hc : n.child? .name = some c) :
    ∃ word, c.here.children = [.leaf word] ∧ word.kind = .ident := by
  obtain ⟨hmem, hname⟩ := mem_children_of_child? hc
  apply hn.1.2 hkind c.tree (tree_mem_of_mem_children hmem)
  rw [tree]
  exact congrArg (Tree.node · _) hname

def focus (n : Node) : Range := ((n.child? .name).map range).getD n.range

theorem focus_inside (n : Node) : n.focus.Inside n.range := by
  rw [focus]
  cases hc : n.child? .name with
  | none => exact ⟨Nat.le_refl _, Nat.le_add_right _ _, Nat.le_refl _⟩
  | some c => exact range_inside_of_mem_children (mem_children_of_child? hc).1

theorem Within.reads_focus (h : (parse text).root.Within n) (hkind : n.kind ≠ .constructorDecl)
    (hdecl : n.kind.isDeclaration = true) :
    (∃ name, n.declName? = some name ∧ Text.Reads text n.focus name) ∨
      n.declName? = none ∧ n.focus = n.range := by
  rw [declName?, if_pos hdecl, focus]
  cases hc : n.child? .name with
  | none => exact .inr ⟨rfl, rfl⟩
  | some c =>
    obtain ⟨word, hchildren, hword⟩ := name_of_child? h.regular_parse hkind hc
    refine .inl ⟨word.text, ?_, ?_⟩
    · simp [firstWord?, tokens, hchildren, Tree.token?, hword]
    · have hreads := (h.child (mem_children_of_child? hc).1).reads
      have htext : c.text = word.text := by
        simp [Node.text, Tree.text, tree, Tree.tokens, hchildren, Tree.tokensAll, spelling]
      rw [htext] at hreads
      exact hreads

theorem refName?_of_leaf {token : Token} (hn : n.tree.Regular) (hkind : n.kind = .nameRef)
    (ht : .leaf token ∈ n.here.children) : n.refName? = some token.text := by
  obtain ⟨word, hchildren, hword⟩ := hn.1.1 hkind
  have hchildren : n.here.children = [.leaf word] := hchildren
  obtain rfl : token = word := by simpa [hchildren] using ht
  have htrivia : token.isTrivia = false := by
    simp only [List.mem_cons, List.not_mem_nil, or_false] at hword
    rcases hword with hw | hw | hw <;> simp [Token.isTrivia, hw, TokenKind.isTrivia]
  simp [refName?, hkind, tokens, hchildren, Tree.token?, htrivia]

theorem mem_leaves_of_significantAt? {root : Node} {offset : Nat} {leaf : Leaf}
    (h : root.significantAt? offset = some leaf) : leaf ∈ root.leaves := by
  have hat : leaf ∈ root.leavesAt offset := by
    unfold significantAt? at h
    have hchosen := (Option.filter_eq_some_iff.1 h).1
    split at hchosen
    · next left right hleaves =>
      rw [hleaves]
      cases hchosen
      split <;> simp
    · next l rest _ hleaves =>
      rw [hleaves]
      cases hchosen
      exact List.mem_cons_self
    · cases hchosen
  exact (List.mem_filter.1 hat).1

end Node

end Source

theorem Destination.eq_of_ofDecl? {index : Declarations} {d : Located} {target : FileId}
    {full focus : Range} {name : Option String}
    (h : Destination.ofDecl? index d = some (.declaration target full focus name)) :
    target = d.file ∧ full = d.node.range ∧ focus = d.node.focus ∧ name = d.node.declName? := by
  unfold Destination.ofDecl? at h
  obtain ⟨file, hfile, h⟩ := Option.bind_eq_some_iff.1 h
  obtain ⟨rfl, rfl, rfl, rfl⟩ := Destination.declaration.inj (Option.some.inj h)
  unfold Declarations.fileOf? at hfile
  split at hfile
  · exact ⟨(Option.some.inj hfile).symm, rfl, rfl, rfl⟩
  · cases hfile

theorem Declarations.fileOf?_of_indexed {index : Declarations} {d : Located}
    (h : d.Indexed index) : index.fileOf? d = some d.file := by
  obtain ⟨root, hroot, _⟩ := h
  have hmem : index.roots.contains d.file = true :=
    Table.contains_iff.2 (List.mem_map_of_mem (Table.mem_of_get? hroot))
  rw [fileOf?, if_pos hmem]

theorem Declarations.Rooted.isDeclaration_target {index : Declarations} (hr : index.Rooted)
    {ref d : Located} (href : ref.Indexed index) (h : index.Target ref d) :
    d.kind.isDeclaration = true := by
  rcases h.named with ⟨name, _, hnamed⟩ | ⟨_, hclass⟩
  · have hname : d.node.declName? = some name := beq_iff_eq.1 hnamed
    unfold Node.declName? at hname
    split at hname
    · assumption
    · cases hname
  · rw [(hr.indexed_enclosingClass href hclass).2]
    rfl

theorem Viewpoint.exists_ref_of_destination? {view : Viewpoint} {root : Node} {offset : Nat}
    {target : FileId} {full focus : Range} {name : Option String}
    (h : view.destination? root offset = some (.declaration target full focus name))
    (hr : view.index.Rooted) (hroot : view.index.root? view.file = some root) :
    ∃ ref d, ref.Indexed view.index ∧ view.index.resolve? ref = some d ∧
      Destination.ofDecl? view.index d = some (.declaration target full focus name) ∧
      ∀ leaf, root.significantAt? offset = some leaf → leaf.parent.kind = .nameRef →
        ref = view.locate leaf.parent := by
  unfold destination? at h
  obtain ⟨leaf, hleaf, h⟩ := Option.bind_eq_some_iff.1 h
  obtain ⟨hwithin, _⟩ := Node.within_of_mem_leaves (Node.mem_leaves_of_significantAt? hleaf)
  have hindexed : (view.locate leaf.parent).Indexed view.index :=
    Located.indexed_iff.2 ⟨root, hroot, hwithin⟩
  split at h
  · next hkind =>
    obtain ⟨page, hpage, h⟩ := Option.bind_eq_some_iff.1 h
    obtain ⟨ref, href, hd⟩ := exists_ref_of_routePage? hr hindexed hpage
    refine ⟨ref, page, href, hd, h, ?_⟩
    intro other hother hname
    obtain rfl := Option.some.inj (hleaf.symm.trans hother)
    rw [hkind] at hname
    cases hname
  · unfold nameDestination? at h
    split at h
    · cases h
    · split at h
      · cases h
      · obtain ⟨d, hd, h⟩ := Option.bind_eq_some_iff.1 h
        refine ⟨_, d, hindexed, hd, h, ?_⟩
        intro other hother _
        rw [Option.some.inj (hleaf.symm.trans hother)]
  · cases h

namespace Workspace

def IsThisClass (w : Workspace) (file : FileId) (range : Range) : Prop :=
  ∃ ref cls : Located, ref.Indexed w.snapshot.index ∧ ref.node.refName? = some "this" ∧
    w.snapshot.index.resolve? ref = some cls ∧ cls.kind = .classDecl ∧
    cls.node.declName? = none ∧ cls.file = file ∧ cls.node.range = range

structure Lands (w : Workspace) (target : FileId) (full focus : Range) (name : Option String)
    (text : String) : Prop where
  current : w.store.contents? target = some text
  inText : full.Inside ⟨0, text.utf8ByteSize⟩
  inFull : focus.Inside full
  spelled : (∃ word, name = some word ∧ Text.Reads text focus word) ∨
    name = none ∧ focus = full ∧ w.IsThisClass target full

variable {w : Workspace}

theorem InSync.lands (h : w.InSync) {ref d : Located} (href : ref.Indexed w.snapshot.index)
    (hd : w.snapshot.index.resolve? ref = some d) :
    ∃ text, w.Lands d.file d.node.range d.node.focus d.node.declName? text := by
  have hr := rooted_snapshot h.nodup
  have htarget := hr.target_resolve href hd
  have hdecl := hr.isDeclaration_target href htarget
  obtain ⟨root, hroot, hwithin⟩ := Located.indexed_iff.1 htarget.indexed
  obtain ⟨text, htext, rfl⟩ := h.text_of_root hroot
  refine ⟨text, htext, hwithin.inside, d.node.focus_inside, ?_⟩
  refine (hwithin.reads_focus htarget.kind hdecl).imp_right ?_
  rintro ⟨hnone, hfocus⟩
  rcases htarget.named with ⟨name, _, hnamed⟩ | ⟨hthis, hclass⟩
  · simp [Node.isNamed, hnone] at hnamed
  · have hkind := (hr.indexed_enclosingClass href hclass).2
    exact ⟨hnone, hfocus, ref, d, href, hthis, hd, hkind, hnone, rfl, rfl⟩

theorem InSync.declName?_of_leaf (h : w.InSync) {ref d : Located} {token : Token}
    (href : ref.Indexed w.snapshot.index) (hd : w.snapshot.index.resolve? ref = some d)
    (hkind : ref.kind = .nameRef) (ht : .leaf token ∈ ref.node.here.children)
    (hthis : token.text ≠ "this") : d.node.declName? = some token.text := by
  have htarget := (rooted_snapshot h.nodup).target_resolve href hd
  obtain ⟨root, hroot, hwithin⟩ := Located.indexed_iff.1 href
  obtain ⟨text, _, rfl⟩ := h.text_of_root hroot
  have hname := Node.refName?_of_leaf hwithin.regular_parse hkind ht
  rcases htarget.named with ⟨name, hspelled, hnamed⟩ | ⟨hword, _⟩
  · rw [← hname, hspelled]
    exact beq_iff_eq.1 hnamed
  · rw [hname] at hword
    exact absurd (Option.some.inj hword) hthis

theorem destination_lands_on_name (h : w.InSync) :
    (∀ file offset target full focus name,
      w.snapshot.destination? file offset = some (.declaration target full focus name) →
        (∃ text, w.Lands target full focus name text) ∧
        ∀ root leaf, w.snapshot.root? file = some root →
          root.significantAt? offset = some leaf → leaf.parent.kind = .nameRef →
          leaf.token.text ≠ "this" → name = some leaf.token.text) ∧
    ∀ ref d, ref.Indexed w.snapshot.index → w.snapshot.index.resolve? ref = some d →
      w.snapshot.index.fileOf? d = some d.file ∧ d.Indexed w.snapshot.index ∧
        d.kind ≠ .constructorDecl := by
  have hr := rooted_snapshot h.nodup
  constructor
  · intro file offset target full focus name hdest
    unfold Snapshot.destination? at hdest
    obtain ⟨root, hroot, hdest⟩ := Option.bind_eq_some_iff.1 hdest
    obtain ⟨view, hview, hdest⟩ := Option.bind_eq_some_iff.1 hdest
    obtain ⟨path, _, rfl⟩ := Option.map_eq_some_iff.1 hview
    obtain ⟨ref, d, href, hd, hofDecl, hat⟩ :=
      Viewpoint.exists_ref_of_destination? hdest hr hroot
    obtain ⟨rfl, rfl, rfl, rfl⟩ := Destination.eq_of_ofDecl? hofDecl
    refine ⟨h.lands href hd, ?_⟩
    intro other leaf hother hleaf hkind hthis
    obtain rfl := Option.some.inj (hroot.symm.trans hother)
    obtain rfl := hat leaf hleaf hkind
    obtain ⟨_, htoken⟩ := Node.within_of_mem_leaves (Node.mem_leaves_of_significantAt? hleaf)
    exact h.declName?_of_leaf href hd hkind htoken hthis
  · intro ref d href hd
    have htarget := hr.target_resolve href hd
    exact ⟨Declarations.fileOf?_of_indexed htarget.indexed, htarget.indexed, htarget.kind⟩

theorem destination_lands_on_name_across_files :
    let w := (((ofProject (.unrecognized ⟨"/app"⟩)).setFile ⟨"/app/a.dart"⟩
      "class { f() { new B(); return this; } }").2.setFile ⟨"/app/b.dart"⟩
      "// é\nclass // é\n B {}").2
    w.InSync ∧
      w.snapshot.destination? ⟨0⟩ 18 = some (.declaration ⟨1⟩ ⟨6, 23⟩ ⟨19, 20⟩ (some "B")) ∧
      (∃ text, w.Lands ⟨1⟩ ⟨6, 23⟩ ⟨19, 20⟩ (some "B") text) ∧
      w.snapshot.destination? ⟨0⟩ 30 = some (.declaration ⟨0⟩ ⟨0, 39⟩ ⟨0, 39⟩ none) ∧
      ∃ text, w.Lands ⟨0⟩ ⟨0, 39⟩ ⟨0, 39⟩ none text := by
  intro w
  have hw : w.InSync :=
    ((inSync_ofProject _).act (.setFile _ _) trivial).act (.setFile _ _) trivial
  have hname : w.snapshot.destination? ⟨0⟩ 18 =
      some (.declaration ⟨1⟩ ⟨6, 23⟩ ⟨19, 20⟩ (some "B")) := by decide +kernel
  have hthis : w.snapshot.destination? ⟨0⟩ 30 =
      some (.declaration ⟨0⟩ ⟨0, 39⟩ ⟨0, 39⟩ none) := by decide +kernel
  obtain ⟨hlands, _⟩ := destination_lands_on_name hw
  exact ⟨hw, hname, (hlands _ _ _ _ _ _ hname).1, hthis, (hlands _ _ _ _ _ _ hthis).1⟩

end Workspace

end CrossReference
