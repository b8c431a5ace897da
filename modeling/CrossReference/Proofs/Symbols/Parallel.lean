import CrossReference.Proofs.Symbols.History
import CrossReference.Proofs.Tree.Counterpart
import CrossReference.Symbols.Diagnostic

namespace CrossReference

open Source (Node NodeKind Token Tree)

structure Located.Counterpart (l l' : Located) : Prop where
  file : l.file = l'.file
  node : l.node.Counterpart l'.node

namespace Located.Counterpart

variable {l l' : Located}

theorem beside (h : l.Counterpart l') {n n' : Node} (hn : n.Counterpart n') :
    (l.beside n).Counterpart (l'.beside n') :=
  ⟨h.file, hn⟩

theorem map_beside (h : l.Counterpart l') {x y : Option Node}
    (hn : Option.Rel Node.Counterpart x y) :
    Option.Rel Located.Counterpart (x.map l.beside) (y.map l'.beside) :=
  rel_map hn fun _ _ => h.beside

theorem enclosingClass? (h : l.Counterpart l') :
    Option.Rel Located.Counterpart l.enclosingClass? l'.enclosingClass? :=
  h.map_beside h.node.enclosingClass?

end Located.Counterpart

namespace Declarations

def Parallel (index index' : Declarations) : Prop :=
  ∀ name, List.Forall₂ Located.Counterpart (index.lookup name) (index'.lookup name)

def InStep (classOf classOf' : Located → Option Located) : Prop :=
  ∀ expr expr', expr.Counterpart expr' →
    Option.Rel Located.Counterpart (classOf expr) (classOf' expr')

theorem forall₂_listed {files files' : Table FileId Node}
    (h : List.Forall₂ (fun e e' => e.1 = e'.1 ∧ e.2.Counterpart e'.2) files files')
    (name : String) :
    List.Forall₂ Located.Counterpart (listed files name) (listed files' name) := by
  apply List.rel_flatMap h
  rintro ⟨file, root⟩ ⟨file', root'⟩ ⟨rfl, hroot⟩
  have hdecls := rel_filter hroot.topLevelDecls fun d d' hd => hd.isNamed name
  exact List.rel_map (fun _ _ hd => ⟨rfl, hd⟩) hdecls

theorem Holds.parallel {index index' : Declarations} {files files' : Table FileId Node}
    (hi : index.Holds files) (hi' : index'.Holds files')
    (h : List.Forall₂ (fun e e' => e.1 = e'.1 ∧ e.2.Counterpart e'.2) files files') :
    index.Parallel index' := by
  intro name
  rw [hi.lookup, hi'.lookup]
  exact forall₂_listed h name

namespace Parallel

variable {index index' : Declarations} {classOf classOf' : Located → Option Located}
variable {l l' : Located}

theorem lookupClass? (h : index.Parallel index') (name : String) :
    Option.Rel Located.Counterpart (index.lookupClass? name) (index'.lookupClass? name) := by
  apply rel_find? (h name)
  intro d d' hd
  rw [hd.node.kind]

theorem resolveLexically? (h : index.Parallel index') (hl : l.Counterpart l') (name : String) :
    Option.Rel Located.Counterpart (index.resolveLexically? l name)
      (index'.resolveLexically? l' name) := by
  have hscopes := rel_findSome? hl.node.ancestors fun _ _ hscope => hscope.declIn? name
  unfold Declarations.resolveLexically?
  generalize l.node.ancestors.findSome? (Node.declIn? name) = x at hscopes
  generalize l'.node.ancestors.findSome? (Node.declIn? name) = y at hscopes
  cases hscopes with
  | some hd => exact .some (hl.beside hd)
  | none => exact rel_head? (h name)

theorem resolveWith? (h : index.Parallel index') (hc : InStep classOf classOf')
    (hl : l.Counterpart l') :
    Option.Rel Located.Counterpart (index.resolveWith? classOf l)
      (index'.resolveWith? classOf' l') := by
  unfold Declarations.resolveWith?
  rw [hl.node.refName?]
  cases l'.node.refName? with
  | none => exact .none
  | some name =>
    apply rel_bind hl.node.parent?
    intro parent parent' hp hp' hparent
    rw [hl.node.isMemberName hp hp']
    split
    · apply rel_bind hparent.firstExpr?
      intro receiver receiver' _ _ hreceiver
      apply rel_bind (hc _ _ (hl.beside hreceiver))
      intro cls cls' _ _ hcls
      exact hcls.map_beside (hcls.node.findMember? name)
    · split
      · exact hl.enclosingClass?
      · exact h.resolveLexically? hl name

theorem rel_typingValue? {n n' : Node} (h : n.Counterpart n') :
    Option.Rel Node.Counterpart (typingValue? n) (typingValue? n') := by
  rw [typingValue?, typingValue?, ← h.kind]
  split
  · exact h.firstExpr?
  · apply rel_bind (h.child? NodeKind.noConfusion)
    intro body body' _ _ hbody
    exact hbody.firstExpr?
  · exact .none

theorem rel_calleeName? {n n' : Node} (h : n.Counterpart n') :
    Option.Rel Node.Counterpart (calleeName? n) (calleeName? n') := by
  rw [calleeName?, calleeName?, ← h.kind]
  split
  · exact .some h
  · exact h.trailingRef?
  · exact .none

theorem classOfDecl? (h : index.Parallel index') (hc : InStep classOf classOf')
    (hl : l.Counterpart l') :
    Option.Rel Located.Counterpart (index.classOfDecl? classOf l)
      (index'.classOfDecl? classOf' l') := by
  rw [Declarations.classOfDecl?, Declarations.classOfDecl?, Located.kind, Located.kind,
    ← hl.node.kind]
  split
  · exact .some hl
  · exact hl.enclosingClass?
  · rw [hl.node.declaredType?]
    split
    · exact h.lookupClass? _
    · apply rel_bind (rel_typingValue? hl.node)
      intro value value' _ _ hvalue
      exact hc _ _ (hl.beside hvalue)

theorem classOfCallee? (h : index.Parallel index') (hl : l.Counterpart l') :
    Option.Rel Located.Counterpart (index.classOfCallee? l) (index'.classOfCallee? l') := by
  rw [Declarations.classOfCallee?, Declarations.classOfCallee?, Located.kind, Located.kind,
    ← hl.node.kind]
  split
  · exact .some hl
  · exact hl.enclosingClass?
  · rw [hl.node.declaredType?]
    cases l'.node.declaredType? with
    | none => exact .none
    | some name => exact h.lookupClass? name

theorem classOfExpr? (h : index.Parallel index') (hc : InStep classOf classOf') :
    InStep (index.classOfExpr? classOf) (index'.classOfExpr? classOf') := by
  intro l l' hl
  rw [Declarations.classOfExpr?, Declarations.classOfExpr?, Located.kind, Located.kind,
    ← hl.node.kind]
  split
  · apply rel_bind (h.resolveWith? hc hl)
    intro d d' _ _ hd
    exact h.classOfDecl? hc hd
  · apply rel_bind hl.node.trailingRef?
    intro member member' _ _ hmember
    apply rel_bind (h.resolveWith? hc (hl.beside hmember))
    intro d d' _ _ hd
    exact h.classOfDecl? hc hd
  · apply rel_bind hl.node.firstExpr?
    intro first first' _ _ hfirst
    apply rel_bind (rel_calleeName? hfirst)
    intro callee callee' _ _ hcallee
    apply rel_bind (h.resolveWith? hc (hl.beside hcallee))
    intro d d' _ _ hd
    exact h.classOfCallee? hd
  · apply rel_bind hl.node.firstExpr?
    intro inner inner' _ _ hinner
    exact hc _ _ (hl.beside hinner)
  · apply rel_bind hl.node.firstExpr?
    intro inner inner' _ _ hinner
    exact hc _ _ (hl.beside hinner)
  · exact .none

theorem classOf? (h : index.Parallel index') (depth : Nat) :
    InStep (index.classOf? depth) (index'.classOf? depth) := by
  induction depth with
  | zero =>
    intro l l' _
    exact .none
  | succ depth ih => exact h.classOfExpr? ih

theorem resolve? (h : index.Parallel index') (hl : l.Counterpart l') :
    Option.Rel Located.Counterpart (index.resolve? l) (index'.resolve? l') := by
  rw [Declarations.resolve?, Declarations.resolve?, resolveWithin?, resolveWithin?, Located.kind,
    Located.kind, ← hl.node.kind]
  split
  · exact h.resolveWith? (h.classOf? typingDepth) hl
  · exact .none

end Parallel

end Declarations

namespace Diagnostic

section Node

variable {n n' : Node}

theorem text_reported (h : n.Counterpart n') (hkind : n.kind ≠ .sourceFile) :
    (reported n n.parent?).text = (reported n' n'.parent?).text := by
  have hself : n.text = n'.text := congrArg Tree.text (h.tree hkind)
  rcases h.parent?_cases with ⟨hp, hp'⟩ | ⟨p, p', hp, hp', hparent⟩
  · rw [hp, hp']
    exact hself
  · rw [hp, hp', reported, reported, ← hparent.kind]
    cases hcall : p.kind == .callExpr with
    | false => exact hself
    | true =>
      have hroot : p.kind ≠ .sourceFile := by
        rw [beq_iff_eq.1 hcall]
        exact NodeKind.noConfusion
      rw [h.isSame_firstExpr? hp hp' hroot]
      split
      · exact congrArg Tree.text (hparent.tree hroot)
      · exact hself

theorem forall₂_directTokens (h : n.Counterpart n') (hkind : n.kind ≠ .sourceFile) :
    List.Forall₂ (fun t t' => t.1 = t'.1) n.directTokens n'.directTokens := by
  have hchildren : n.here.children = n'.here.children := (Tree.node.inj (h.tree hkind)).2
  have hfrom (start start' : Nat) (ts : List Tree) :
      List.Forall₂ (fun t t' => t.1 = t'.1) (Node.directTokensFrom start ts)
        (Node.directTokensFrom start' ts) := by
    induction ts generalizing start start' with
    | nil => exact .nil
    | cons t ts ih =>
      cases t with
      | node kind children => exact ih _ _
      | leaf token => exact .cons rfl (ih _ _)
  rw [Node.directTokens, Node.directTokens, ← hchildren]
  exact hfrom _ _ _

end Node

variable {index index' : Declarations} {l l' : Located}

theorem symbol_ofNameRef? (h : index.Parallel index') (hl : l.Counterpart l') :
    (ofNameRef? index l).map symbol = (ofNameRef? index' l').map symbol := by
  have hmember : l.node.parent?.any l.node.isMemberName =
      l'.node.parent?.any l'.node.isMemberName :=
    any_eq_of_rel hl.node.parent? fun p p' hp hp' _ => hl.node.isMemberName hp hp'
  unfold ofNameRef?
  rw [hmember, isNone_eq_of_rel (h.resolve? hl), ← hl.node.refName?]
  cases hname : l.node.refName? with
  | none => rfl
  | some name =>
    have hkind : l.node.kind ≠ .sourceFile := by
      intro hroot
      simp [Node.refName?, hroot] at hname
    rw [Option.bind_eq_bind, Option.bind_some, Option.bind_some]
    split
    · exact congrArg (fun text => some (trimmed text)) (text_reported hl.node hkind)
    · rfl

theorem symbol_ofTypeRef? (h : index.Parallel index') (hl : l.Counterpart l')
    (hkind : l.node.kind ≠ .sourceFile) :
    (ofTypeRef? index l).map symbol = (ofTypeRef? index' l').map symbol := by
  have htokens := rel_filter (forall₂_directTokens hl.node hkind)
    fun t t' (ht : t.1 = t'.1) => congrArg (fun token => !token.isTrivia) ht
  unfold ofTypeRef?
  generalize l.node.directTokens.filter (!·.1.isTrivia) = ts at htokens
  generalize l'.node.directTokens.filter (!·.1.isTrivia) = ts' at htokens
  cases htokens with
  | nil => rfl
  | @cons t t' rest rest' ht hrest =>
    obtain ⟨head, start⟩ := t
    obtain ⟨_, start'⟩ := t'
    obtain rfl := ht
    have hnext : rest.head?.all (·.1.kind != .dot) = rest'.head?.all (·.1.kind != .dot) := by
      cases hrest with
      | nil => rfl
      | cons ht _ =>
        rw [List.head?_cons, List.head?_cons, Option.all_some, Option.all_some, ht]
    dsimp only
    rw [hnext, isNone_eq_of_rel (h.lookupClass? head.text)]
    split
    · rfl
    · rfl

theorem symbol_ofNode? (h : index.Parallel index') (hl : l.Counterpart l') :
    (ofNode? index l).map symbol = (ofNode? index' l').map symbol := by
  rw [ofNode?, ofNode?, Located.kind, Located.kind, ← hl.node.kind]
  split
  · exact symbol_ofNameRef? h hl
  · next hkind => exact symbol_ofTypeRef? h hl (hkind ▸ NodeKind.noConfusion)
  · rfl

theorem exists_undefined_of_ofNode? {d : Diagnostic} (h : ofNode? index l = some d) :
    ∃ range symbol name, d = undefined l.file range symbol name := by
  unfold ofNode? at h
  split at h
  · obtain ⟨name, _, h⟩ := Option.bind_eq_some_iff.1 h
    split at h
    · cases h
      exact ⟨_, _, _, rfl⟩
    · cases h
  · unfold ofTypeRef? at h
    split at h
    · split at h
      · cases h
        exact ⟨_, _, _, rfl⟩
      · cases h
    · cases h
  · cases h

theorem of_mem_check {file : FileId} {root : Node} {d : Diagnostic}
    (h : d ∈ check index file root) : d.isUnresolved = true ∧ d.file = file := by
  obtain ⟨n, _, hn⟩ := List.mem_filterMap.1 h
  obtain ⟨range, symbol, name, rfl⟩ := exists_undefined_of_ofNode? hn
  exact ⟨rfl, rfl⟩

def symbolsBelow (index : Declarations) (file : FileId) (n : Node) : List String :=
  (check index file n).map symbol

theorem symbolsBelow_eq (index : Declarations) (file : FileId) (n : Node) :
    symbolsBelow index file n =
      ((ofNode? index ⟨file, n⟩).map symbol).toList ++
        n.children.flatMap (symbolsBelow index file) := by
  rw [symbolsBelow, check, Node.descendants_eq, List.filterMap_cons, List.filterMap_flatMap]
  cases ofNode? index ⟨file, n⟩ with
  | none =>
    rw [List.map_flatMap]
    rfl
  | some d =>
    rw [List.map_cons, List.map_flatMap]
    rfl

theorem symbolsBelow_line (index : Declarations) (file : FileId) {n : Node} (h : n.IsLine) :
    symbolsBelow index file n = [] := by
  obtain ⟨⟨kind, children, start, place⟩, above⟩ := n
  obtain ⟨uri, htree⟩ := h
  obtain ⟨rfl, rfl⟩ := Tree.node.inj htree
  rfl

theorem symbolsBelow_counterpart (h : index.Parallel index') (file : FileId) {n n' : Node}
    (hn : n.Counterpart n') : symbolsBelow index file n = symbolsBelow index' file n' := by
  induction hd : n.depth using Nat.strongRecOn generalizing n n' with
  | _ d ih =>
    have hself : (⟨file, n⟩ : Located).Counterpart ⟨file, n'⟩ := ⟨rfl, hn⟩
    have hbelow : n.children.flatMap (symbolsBelow index file) =
        n'.children.flatMap (symbolsBelow index' file) := by
      apply hn.children.flatMap_eq
      · intro c hc c' hcc
        exact ih _ (hd ▸ Node.depth_lt_of_mem_children hc) hcc rfl
      · intro line hline
        exact symbolsBelow_line index' file hline
    rw [symbolsBelow_eq, symbolsBelow_eq index', symbol_ofNode? h hself, hbelow]

end Diagnostic

end CrossReference
