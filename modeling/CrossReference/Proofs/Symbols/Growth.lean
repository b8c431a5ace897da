import CrossReference.Proofs.Symbols.History
import CrossReference.Symbols.Diagnostic

namespace CrossReference

open Source (Node)

namespace Declarations

def Grows (index larger : Declarations) : Prop :=
  ∀ name, index.lookup name <+: larger.lookup name

def Refines (classOf larger : Located → Option Located) : Prop :=
  ∀ expr cls, classOf expr = some cls → larger expr = some cls

variable {index larger : Declarations} {classOf classOf' : Located → Option Located}

theorem Grows.refl (index : Declarations) : index.Grows index := fun _ => List.prefix_refl _

theorem Grows.head? (h : index.Grows larger) {name : String} {d : Located}
    (hd : (index.lookup name).head? = some d) : (larger.lookup name).head? = some d := by
  obtain ⟨more, hmore⟩ := h name
  rw [← hmore, List.head?_append, hd]
  rfl

theorem Grows.lookupClass? (h : index.Grows larger) {name : String} {cls : Located}
    (hc : index.lookupClass? name = some cls) : larger.lookupClass? name = some cls :=
  (h name).find?_eq_some hc

theorem Grows.resolveLexically? (h : index.Grows larger) {ref d : Located} {name : String}
    (hd : index.resolveLexically? ref name = some d) :
    larger.resolveLexically? ref name = some d := by
  unfold Declarations.resolveLexically? at hd ⊢
  cases hscope : ref.node.ancestors.findSome? (Node.declIn? name) with
  | some decl =>
    rw [hscope] at hd
    exact hd
  | none =>
    rw [hscope] at hd
    exact h.head? hd

theorem Grows.resolveWith? (h : index.Grows larger) (hf : Refines classOf classOf')
    {ref d : Located} (hd : index.resolveWith? classOf ref = some d) :
    larger.resolveWith? classOf' ref = some d := by
  unfold Declarations.resolveWith? at hd ⊢
  obtain ⟨name, hname, hd⟩ := Option.bind_eq_some_iff.1 hd
  obtain ⟨parent, hparent, hd⟩ := Option.bind_eq_some_iff.1 hd
  refine Option.bind_eq_some_iff.2 ⟨name, hname, Option.bind_eq_some_iff.2 ⟨parent, hparent, ?_⟩⟩
  split at hd
  · next hmember =>
    obtain ⟨receiver, hreceiver, hd⟩ := Option.bind_eq_some_iff.1 hd
    obtain ⟨cls, hcls, hd⟩ := Option.bind_eq_some_iff.1 hd
    rw [if_pos hmember]
    refine Option.bind_eq_some_iff.2 ⟨receiver, hreceiver, ?_⟩
    exact Option.bind_eq_some_iff.2 ⟨cls, hf _ _ hcls, hd⟩
  · next hmember =>
    rw [if_neg hmember]
    split at hd
    · next hthis =>
      rw [if_pos hthis]
      exact hd
    · next hthis =>
      rw [if_neg hthis]
      exact h.resolveLexically? hd

theorem Grows.classOfDecl? (h : index.Grows larger) (hf : Refines classOf classOf')
    {decl cls : Located} (hc : index.classOfDecl? classOf decl = some cls) :
    larger.classOfDecl? classOf' decl = some cls := by
  unfold Declarations.classOfDecl? at hc ⊢
  split at hc
  · exact hc
  · exact hc
  · cases htype : decl.node.declaredType? with
    | some name =>
      rw [htype] at hc
      exact h.lookupClass? hc
    | none =>
      rw [htype] at hc
      obtain ⟨value, hvalue, hc⟩ := Option.bind_eq_some_iff.1 hc
      exact Option.bind_eq_some_iff.2 ⟨value, hvalue, hf _ _ hc⟩

theorem Grows.classOfCallee? (h : index.Grows larger) {decl cls : Located}
    (hc : index.classOfCallee? decl = some cls) : larger.classOfCallee? decl = some cls := by
  unfold Declarations.classOfCallee? at hc ⊢
  split at hc
  · exact hc
  · exact hc
  · obtain ⟨name, hname, hc⟩ := Option.bind_eq_some_iff.1 hc
    exact Option.bind_eq_some_iff.2 ⟨name, hname, h.lookupClass? hc⟩

theorem Grows.classOfExpr? (h : index.Grows larger) (hf : Refines classOf classOf') :
    Refines (index.classOfExpr? classOf) (larger.classOfExpr? classOf') := by
  intro expr cls hc
  unfold Declarations.classOfExpr? at hc ⊢
  split at hc
  · obtain ⟨d, hd, hc⟩ := Option.bind_eq_some_iff.1 hc
    exact Option.bind_eq_some_iff.2 ⟨d, h.resolveWith? hf hd, h.classOfDecl? hf hc⟩
  · obtain ⟨member, hmember, hc⟩ := Option.bind_eq_some_iff.1 hc
    obtain ⟨d, hd, hc⟩ := Option.bind_eq_some_iff.1 hc
    refine Option.bind_eq_some_iff.2 ⟨member, hmember, ?_⟩
    exact Option.bind_eq_some_iff.2 ⟨d, h.resolveWith? hf hd, h.classOfDecl? hf hc⟩
  · obtain ⟨first, hfirst, hc⟩ := Option.bind_eq_some_iff.1 hc
    obtain ⟨callee, hcallee, hc⟩ := Option.bind_eq_some_iff.1 hc
    obtain ⟨d, hd, hc⟩ := Option.bind_eq_some_iff.1 hc
    refine Option.bind_eq_some_iff.2 ⟨first, hfirst, ?_⟩
    refine Option.bind_eq_some_iff.2 ⟨callee, hcallee, ?_⟩
    exact Option.bind_eq_some_iff.2 ⟨d, h.resolveWith? hf hd, h.classOfCallee? hc⟩
  · obtain ⟨inner, hinner, hc⟩ := Option.bind_eq_some_iff.1 hc
    exact Option.bind_eq_some_iff.2 ⟨inner, hinner, hf _ _ hc⟩
  · obtain ⟨inner, hinner, hc⟩ := Option.bind_eq_some_iff.1 hc
    exact Option.bind_eq_some_iff.2 ⟨inner, hinner, hf _ _ hc⟩
  · cases hc

theorem Grows.classOf? (h : index.Grows larger) {depth depth' : Nat} (hdepth : depth ≤ depth') :
    Refines (index.classOf? depth) (larger.classOf? depth') := by
  induction depth generalizing depth' with
  | zero =>
    intro expr cls hc
    cases hc
  | succ depth ih =>
    obtain ⟨rest, rfl⟩ := Nat.exists_eq_add_of_le' hdepth
    exact h.classOfExpr? (ih (Nat.le_add_left depth rest))

theorem Grows.resolveWithin? (h : index.Grows larger) {depth depth' : Nat} (hdepth : depth ≤ depth')
    {ref d : Located} (hd : index.resolveWithin? depth ref = some d) :
    larger.resolveWithin? depth' ref = some d := by
  unfold Declarations.resolveWithin? at hd ⊢
  split at hd
  · next href =>
    rw [if_pos href]
    exact h.resolveWith? (h.classOf? hdepth) hd
  · cases hd

theorem Grows.resolve? (h : index.Grows larger) {ref d : Located}
    (hd : index.resolve? ref = some d) : larger.resolve? ref = some d :=
  h.resolveWithin? (Nat.le_refl typingDepth) hd

theorem removeFile_of_not_indexed {file : FileId} (hnew : index.root? file = none) :
    index.removeFile file = index := by
  have hc : index.roots.contains file ≠ true := by
    intro hc
    exact Table.get?_eq_none_iff.1 hnew (Table.contains_iff.1 hc)
  rw [removeFile, if_neg hc]

theorem grows_addFile {file : FileId} (hnew : index.root? file = none) (root : Node) :
    index.Grows (index.addFile file root) := by
  intro name
  refine ⟨((declared file root).filter (·.1 = name)).map Prod.snd, ?_⟩
  rw [addFile, removeFile_of_not_indexed hnew]
  exact (get?_addNames _ name).symm

theorem root?_addFile_of_ne {file other : FileId} (hnew : index.root? file = none) (root : Node)
    {tree : Node} (hother : index.root? other = some tree) :
    (index.addFile file root).root? other = some tree := by
  rw [addFile, removeFile_of_not_indexed hnew]
  rw [root?, Table.get?] at hother ⊢
  obtain ⟨e, he, rfl⟩ := Option.map_eq_some_iff.1 hother
  rw [List.find?_append, he]
  rfl

end Declarations

namespace Diagnostic

variable {index larger : Declarations}

theorem ofNameRef?_of_grows (h : index.Grows larger) {ref : Located} {d : Diagnostic}
    (hd : ofNameRef? larger ref = some d) : ofNameRef? index ref = some d := by
  unfold ofNameRef? at hd ⊢
  obtain ⟨name, hname, hd⟩ := Option.bind_eq_some_iff.1 hd
  refine Option.bind_eq_some_iff.2 ⟨name, hname, ?_⟩
  split at hd
  · next hc =>
    have hnone : index.resolve? ref = none := by
      cases hr : index.resolve? ref with
      | none => rfl
      | some target => simp [h.resolve? hr] at hc
    simp only [Bool.and_eq_true] at hc
    rw [if_pos (by simp [hc.1.1, hc.1.2, hnone])]
    exact hd
  · cases hd

theorem ofTypeRef?_of_grows (h : index.Grows larger) {type : Located} {d : Diagnostic}
    (hd : ofTypeRef? larger type = some d) : ofTypeRef? index type = some d := by
  unfold ofTypeRef? at hd ⊢
  split at hd
  · next head start rest _ =>
    split at hd
    · next hc =>
      have hnone : index.lookupClass? head.text = none := by
        cases hl : index.lookupClass? head.text with
        | none => rfl
        | some cls => simp [h.lookupClass? hl] at hc
      simp only [Bool.and_eq_true] at hc
      rw [if_pos (by simp [hc.1.1.1, hc.1.1.2, hc.1.2, hnone])]
      exact hd
    · cases hd
  · cases hd

theorem ofNode?_of_grows (h : index.Grows larger) {l : Located} {d : Diagnostic}
    (hd : ofNode? larger l = some d) : ofNode? index l = some d := by
  unfold ofNode? at hd ⊢
  split at hd
  · exact ofNameRef?_of_grows h hd
  · exact ofTypeRef?_of_grows h hd
  · cases hd

theorem filterMap_sublist {α β : Type} {f g : α → Option β}
    (h : ∀ a b, g a = some b → f a = some b) (l : List α) :
    List.Sublist (l.filterMap g) (l.filterMap f) := by
  induction l with
  | nil => exact .slnil
  | cons a l ih =>
    cases hg : g a with
    | some b =>
      rw [List.filterMap_cons_some hg, List.filterMap_cons_some (h a b hg)]
      exact ih.cons_cons b
    | none =>
      rw [List.filterMap_cons_none hg]
      cases hf : f a with
      | some b =>
        rw [List.filterMap_cons_some hf]
        exact ih.cons b
      | none =>
        rw [List.filterMap_cons_none hf]
        exact ih

theorem check_sublist (h : index.Grows larger) (file : FileId) (root : Node) :
    List.Sublist (check larger file root) (check index file root) := by
  apply filterMap_sublist
  intro n d hd
  exact ofNode?_of_grows h hd

end Diagnostic

namespace Declarations

variable {index : Declarations}

theorem addFile_keeps_resolutions {file : FileId} (hnew : index.root? file = none) (root : Node) :
    (∀ ref d, index.resolve? ref = some d → (index.addFile file root).resolve? ref = some d) ∧
    ∀ other tree, index.root? other = some tree →
      (index.addFile file root).root? other = some tree ∧
      List.Sublist (Diagnostic.check (index.addFile file root) other tree)
        (Diagnostic.check index other tree) := by
  have hgrows := grows_addFile hnew root
  constructor
  · intro ref d hd
    exact hgrows.resolve? hd
  · intro other tree hother
    exact ⟨root?_addFile_of_ne hnew root hother, Diagnostic.check_sublist hgrows other tree⟩

theorem addFile_keeps_resolutions_through_receivers :
    let text := "class Home { Page page; } class Page { void open() {} } void go(Home h) { h.page.open(); }"
    let tree := (Source.parse text).root
    let added := (Source.parse "class Page {} class Home {}").root
    let index := empty.addFile ⟨0⟩ tree
    index.root? ⟨1⟩ = none ∧
    ∃ ref d, ref ∈ tree.descendants.map (Located.mk ⟨0⟩) ∧ ref.node.refName? = some "open" ∧
      d.kind = .methodDecl ∧ index.resolve? ref = some d ∧
      (index.addFile ⟨1⟩ added).resolve? ref = some d := by
  intro text tree added index
  have hnew : index.root? ⟨1⟩ = none := by decide +kernel
  have hmember : ((tree.descendants.map (Located.mk ⟨0⟩)).find? fun ref =>
      ref.node.refName? == some "open" &&
        (index.resolve? ref).any (·.kind == .methodDecl)).isSome = true := by
    decide +kernel
  obtain ⟨ref, href⟩ := Option.isSome_iff_exists.1 hmember
  have hfound := List.find?_some href
  rw [Bool.and_eq_true, beq_iff_eq] at hfound
  obtain ⟨d, hd, hkind⟩ := (Option.any_eq_true _ _).1 hfound.2
  exact ⟨hnew, ref, d, List.mem_of_find?_eq_some href, hfound.1, by simpa using hkind, hd,
    (addFile_keeps_resolutions hnew added).1 ref d hd⟩

end Declarations

end CrossReference
