import CrossReference.Proofs.Printing.Class
import CrossReference.Proofs.Symbols.Access
import CrossReference.Proofs.Symbols.History
import CrossReference.Proofs.Tree.Spread
import CrossReference.Reference.Image

namespace CrossReference

open Source
open Source.Token (sign space)

structure Picture where
  leaf : Word
  path : Quoted

def picturesSource (pictures : List Picture) : String :=
  "class R { static const image = _I(); }" ++ r" class _I {" ++
    String.join (pictures.map fun p => " String get " ++ p.leaf.1 ++ " => '" ++ p.path.1 ++ "';") ++
    r" }"

def pictureUse (leaf : Word) : String := "final w = R.image." ++ leaf.1 ++ ";"

def namespaceWord : Word := ⟨"R", rfl⟩

def imageWord : Word := ⟨"image", rfl⟩

def accessorsWord : Word := ⟨"_I", rfl⟩

def stringWord : Word := ⟨"String", rfl⟩

def usedWord : Word := ⟨"w", rfl⟩

def namespaceClass : LineClass where
  name := namespaceWord
  members := [constantField imageWord (.chain (.call (.name accessorsWord) []))]
  reads := List.forall_mem_singleton.2 (readAs_constantField imageWord rfl _)
  closed := List.forall_mem_singleton.2 (closed_constantField imageWord _)
  isNode := List.forall_mem_singleton.2 rfl

def Picture.getter (p : Picture) : Written := Source.getter stringWord p.leaf (.text p.path)

theorem Picture.isNode_getter (p : Picture) : p.getter.tree.isNode = true := rfl

theorem Picture.readAs_getter (p : Picture) (owner : String) :
    p.getter.ReadAs (.member (some owner)) :=
  Source.readAs_getter (by decide) p.leaf (.text p.path)

theorem Picture.closed_getter (p : Picture) : Closed p.getter.tokens :=
  Source.closed_getter stringWord p.leaf (.text p.path)

def accessorsClass (pictures : List Picture) : LineClass where
  name := accessorsWord
  members := pictures.map Picture.getter
  reads := List.forall_mem_map.2 fun p _ => p.readAs_getter _
  closed := List.forall_mem_map.2 fun p _ => p.closed_getter
  isNode := List.forall_mem_map.2 fun p _ => p.isNode_getter

theorem toList_getters (pictures : List Picture) :
    (String.join (pictures.map fun p =>
      " String get " ++ p.leaf.1 ++ " => '" ++ p.path.1 ++ "';")).toList =
        chars (Written.behind space (pictures.map Picture.getter)) := by
  induction pictures with
  | nil => rfl
  | cons p pictures ih =>
    simp [Written.behind, Picture.getter, getter, stringWord, getWord, Expr.tokens, Quoted.token,
      ih]

theorem chars_namespaceClass :
    chars namespaceClass.written.tokens =
      "class R { static const image = _I(); }".toList := by
  decide

theorem chars_accessorsClass (pictures : List Picture) :
    chars (Written.behind space [(accessorsClass pictures).written]) =
      r" class _I {".toList ++
        (chars (Written.behind space (pictures.map Picture.getter)) ++ r" }".toList) := by
  simp [LineClass.written, accessorsClass, classAround, Written.behind, accessorsWord]

theorem toList_picturesSource (pictures : List Picture) :
    (picturesSource pictures).toList =
      chars (namespaceClass.lineTokens [accessorsClass pictures]) := by
  rw [LineClass.lineTokens, chars_append, chars_namespaceClass, List.map_singleton,
    chars_accessorsClass]
  unfold picturesSource
  simp only [String.toList_append, toList_getters, List.append_assoc]

theorem parse_picturesSource (pictures : List Picture) :
    parse (picturesSource pictures) =
      ⟨[namespaceClass.written.tree, .leaf space, (accessorsClass pictures).written.tree], []⟩ :=
  namespaceClass.parse_line [accessorsClass pictures] (toList_picturesSource pictures)

structure HoldsImage (cls member call callee : Node) : Prop where
  isClass : cls.kind = .classDecl
  named : cls.declName? = some "R"
  found : cls.findMember? "image" = some member
  isDeclarator : member.kind = .declarator
  untyped : member.declaredType? = none
  value : member.firstExpr? = some call
  isCall : call.kind = .callExpr
  calls : call.firstExpr? = some callee
  name : callee.tree = accessorsWord.tree
  parent : callee.parent? = some call
  scopes : callee.ancestors.findSome? (Node.declIn? "_I") =
    cls.strictAncestors.findSome? (Node.declIn? "_I")

theorem exists_holdsImage {cls : Node} (h : cls.tree = namespaceClass.written.tree) :
    ∃ member call callee, HoldsImage cls member call callee := by
  -- The tree is fixed, so what stands where is a matter of computation.
  obtain ⟨⟨kind, children, start, index⟩, above⟩ := cls
  cases h
  exact ⟨_, _, _, rfl, rfl, rfl, rfl, rfl, rfl, rfl, rfl, rfl, rfl, rfl⟩

structure DeclaresPictures (root cls accessors : Node) (pictures : List Picture) : Prop where
  isFile : root.kind = .sourceFile
  top : root.above = []
  children : root.children = [cls, accessors]
  holder : cls.tree = namespaceClass.written.tree
  accessors : accessors.tree = (accessorsClass pictures).written.tree

theorem exists_declaresPictures {root : Node} {pictures : List Picture}
    (hroot : root.tree = .node .sourceFile
      [namespaceClass.written.tree, .leaf space, (accessorsClass pictures).written.tree])
    (htop : root.above = []) : ∃ cls accessors, DeclaresPictures root cls accessors pictures := by
  have htrees : root.children.map Node.tree =
      [namespaceClass.written.tree, (accessorsClass pictures).written.tree] := by
    rw [Node.map_tree_children hroot]
    rfl
  obtain ⟨cls, accessors, hchildren, hcls, haccessors⟩ := Node.exists_pair htrees
  exact ⟨cls, accessors, Node.kind_of_tree hroot, htop, hchildren, hcls, haccessors⟩

structure IsAccessor (p : Picture) (g : Node) : Prop where
  kind : g.kind = .getterDecl
  name : g.declName? = some p.leaf.1
  path : Viewpoint.logicalPath? g = some p.path.1

section Accessors

variable {pictures : List Picture} {accessors : Node}
  (h : accessors.tree = (accessorsClass pictures).written.tree)
include h

theorem exists_getters :
    List.Forall₂ IsAccessor pictures accessors.classMembers := by
  have hgetter (p : Picture) (g : Node) (hg : g.tree = p.getter.tree) :
      List.Forall₂ IsAccessor [p] g.declaredBy := by
    obtain ⟨hkind, hname, v, hyielded, hv⟩ := Node.exists_getter hg
    have hpath : Viewpoint.logicalPath? g = some p.path.1 := by
      simp [Viewpoint.logicalPath?, hkind, hyielded, Node.stringValue?_text hv]
    simpa [Node.declaredBy, hkind] using IsAccessor.mk hkind hname hpath
  have hall := LineClass.forall₂_classMembers rfl hgetter h
  rwa [List.flatMap_singleton'] at hall

theorem findMember?_accessors (name : String) :
    Option.Rel IsAccessor (pictures.find? (·.leaf.1 == name)) (accessors.findMember? name) := by
  refine rel_find? (exists_getters h) fun p g hg => ?_
  simp [hg.kind, Node.isNamed, hg.name]

end Accessors

def useExpr (leaf : Word) : Expr :=
  .chain (.member (.member (.name namespaceWord) imageWord) leaf)

theorem parse_pictureUse (leaf : Word) :
    parse (pictureUse leaf) = ⟨[finalTree usedWord (useExpr leaf)], []⟩ := by
  refine parse_final usedWord rfl (useExpr leaf) ?_
  unfold pictureUse
  simp [finalTokens, declaratorTokens, useExpr, Expr.tokens, Chain.tokens, usedWord,
    namespaceWord, imageWord]

structure UsesPicture (root chain receiver leaf head : Node) (name : Word) : Prop where
  yields : root.topLevelDecls.head?.bind Node.yielded? = some chain
  segments : ∃ first second, chain.chain? = some [first, second, ⟨name.1, leaf, none⟩] ∧
    first.name = "R" ∧ first.call = none ∧ second.call = none
  access : chain.Accesses receiver leaf name.1
  member : ∃ ref, receiver.Accesses head ref "image"
  first : head.tree = namespaceWord.tree
  scopes : head.ancestors.findSome? (Node.declIn? "R") = none
  elsewhere : ∀ d ∈ root.topLevelDecls, d.isNamed "R" = false

theorem exists_usesPicture {root : Node} {name : Word}
    (hroot : root.tree = .node .sourceFile [finalTree usedWord (useExpr name)])
    (htop : root.above = []) :
    ∃ chain receiver leaf head, UsesPicture root chain receiver leaf head name := by
  obtain ⟨item, d, hitem, hkind, hd, htree⟩ := Node.exists_final hroot
  obtain ⟨chain, hchain, hvalue, hyielded, hname⟩ := Node.exists_value htree
  obtain ⟨receiver, leaf, haccess, hreceiver, hsegments⟩ := Node.exists_accesses hvalue
  obtain ⟨head, ref, hmember, hhead, hbefore⟩ := Node.exists_accesses hreceiver
  have hdecls : root.topLevelDecls = [d] := by
    simp [Node.topLevelDecls, hitem, hkind, Node.childrenOf, hd, Node.kind_of_tree htree]
  have hother : d.isNamed "R" = false := by simp [Node.isNamed, hname, usedWord]
  refine ⟨chain, receiver, leaf, head, ?_, ?_, haccess, ⟨ref, hmember⟩, hhead, ?_, ?_⟩
  · rw [hdecls]
    exact hyielded
  · rw [hsegments, hbefore, Node.chain?_word hhead]
    exact ⟨_, _, rfl, rfl, rfl, rfl⟩
  · have hscopes : head.ancestors = [head, receiver, chain, d, item, root] := by
      rw [Node.ancestors,
        Node.strictAncestors_of_mem_children (Node.mem_children_of_firstExpr? hmember.first),
        Node.strictAncestors_of_mem_children (Node.mem_children_of_firstExpr? haccess.first),
        Node.strictAncestors_of_mem_children hchain,
        Node.strictAncestors_of_mem_children (n := item) (by simp [hd]),
        Node.strictAncestors_of_mem_children (n := root) (by simp [hitem]),
        Node.strictAncestors, htop]
      rfl
    simp [hscopes, Node.declIn?, Node.kind_of_tree hhead, hmember.kind, haccess.kind,
      Node.kind_of_tree htree, hkind, Node.kind_of_tree hroot, hdecls, hother]
  · rw [hdecls]
    exact List.forall_mem_singleton.2 hother

section Resolution

variable {root cls accessors : Node} {pictures : List Picture}
  (h : DeclaresPictures root cls accessors pictures)
include h

theorem isClass_accessors : accessors.kind = .classDecl ∧ accessors.declName? = some "_I" := by
  obtain ⟨hkind, hname, -⟩ := (accessorsClass pictures).exists_members h.accessors
  exact ⟨hkind, hname⟩

theorem topLevelDecls_pictures : root.topLevelDecls = [cls, accessors] := by
  simp [Node.topLevelDecls, h.children, Node.kind_of_tree h.holder, (isClass_accessors h).1]

theorem classOf?_call {member call callee : Node} (hcls : HoldsImage cls member call callee)
    (index : Declarations) (images : FileId) (depth : Nat) :
    index.classOf? (depth + 1) ⟨images, call⟩ = some ⟨images, accessors⟩ := by
  obtain ⟨hkind, hname⟩ := isClass_accessors h
  have hfile : root.declIn? "_I" = some accessors := by
    simp [Node.declIn?, h.isFile, topLevelDecls_pictures h, Node.isNamed, hcls.named, hname]
  have hscopes : callee.ancestors.findSome? (Node.declIn? "_I") = some accessors := by
    rw [hcls.scopes, Node.strictAncestors_of_mem_children (n := root) (by simp [h.children])]
    simp [hfile]
  have hresolve : index.resolveWith? (index.classOf? depth) ⟨images, callee⟩ =
      some ⟨images, accessors⟩ := by
    rw [Declarations.resolveWith?_first index _ images hcls.name hcls.parent hcls.calls]
    simp [Declarations.resolveLexically?, accessorsWord, hscopes, Located.beside]
  simp [Declarations.classOf?, Declarations.classOfExpr?, Located.kind, hcls.isCall, hcls.calls,
    Declarations.calleeName?, Node.kind_of_tree hcls.name, Located.beside, hresolve,
    Declarations.classOfCallee?, hkind]

variable {index : Declarations} {images : FileId} (hlookup : index.lookup "R" = [⟨images, cls⟩])
  {useRoot chain receiver leaf head : Node} {name : Word}
  (huse : UsesPicture useRoot chain receiver leaf head name) (file : FileId)
include hlookup huse

theorem classOf?_head (depth : Nat) :
    index.classOf? (depth + 1) ⟨file, head⟩ = some ⟨images, cls⟩ := by
  obtain ⟨ref, hmember⟩ := huse.member
  have hparent : head.parent? = some receiver :=
    Node.parent?_of_mem_children (Node.mem_children_of_firstExpr? hmember.first)
  have hresolve : index.resolveWith? (index.classOf? depth) ⟨file, head⟩ =
      some ⟨images, cls⟩ := by
    rw [Declarations.resolveWith?_first index _ file huse.first hparent hmember.first]
    simp [Declarations.resolveLexically?, namespaceWord, huse.scopes, hlookup]
  simp [Declarations.classOf?, Declarations.classOfExpr?, Located.kind,
    Node.kind_of_tree huse.first, hresolve, Declarations.classOfDecl?,
    Node.kind_of_tree h.holder]

theorem classOf?_receiver (depth : Nat) :
    index.classOf? (depth + 2) ⟨file, receiver⟩ = some ⟨images, accessors⟩ := by
  obtain ⟨member, call, callee, hcls⟩ := exists_holdsImage h.holder
  obtain ⟨ref, hmember⟩ := huse.member
  have hfound : Declarations.memberOf? (index.classOf? (depth + 1)) ⟨file, head⟩ "image" =
      some ⟨images, member⟩ := by
    simp [Declarations.memberOf?, classOf?_head h hlookup huse file, hcls.found, Located.beside]
  rw [Declarations.classOf?, Declarations.classOfExpr?_member index _ file hmember, hfound]
  simp [Declarations.classOfDecl?, Located.kind, hcls.isDeclarator, hcls.untyped,
    Declarations.typingValue?, hcls.value, Located.beside, classOf?_call h hcls index images depth]

theorem resolve?_leaf :
    index.resolve? ⟨file, leaf⟩ = (accessors.findMember? name.1).map (⟨images, ·⟩) := by
  have hclass : index.classOf? Declarations.typingDepth ⟨file, receiver⟩ =
      some ⟨images, accessors⟩ := classOf?_receiver h hlookup huse file 14
  rw [Declarations.resolve?_member index file huse.access, Declarations.memberOf?, hclass]
  rfl

end Resolution

namespace Viewpoint

variable {view : Viewpoint}

theorem imageFile?_eq_find {root cls accessors : Node} {pictures : List Picture}
    (h : DeclaresPictures root cls accessors pictures) {images : FileId}
    (hlookup : view.index.lookup "R" = [⟨images, cls⟩])
    {useRoot chain receiver leaf head : Node} {name : Word}
    (huse : UsesPicture useRoot chain receiver leaf head name)
    (hproject : view.project.recognized = true) (hsettings : view.settings = .initial) :
    view.imageFile? chain = (pictures.find? (·.leaf.1 == name.1)).bind fun p =>
      Asset.locate? view.store.contains view.project.root p.path.1
        view.settings.densityVariants := by
  obtain ⟨first, second, hchain, hname, hfirst, hsecond⟩ := huse.segments
  have hleaf : view.imageLeaf? chain = some leaf := by
    simp [imageLeaf?, hchain, hname, hfirst, hsecond, hsettings, Settings.isResourceNamespace,
      Settings.initial]
  have hresolve : view.index.resolve? (view.locate leaf) =
      (accessors.findMember? name.1).map (⟨images, ·⟩) := resolve?_leaf h hlookup huse view.file
  have hfound := findMember?_accessors h.accessors name.1
  generalize pictures.find? (·.leaf.1 == name.1) = found at hfound ⊢
  generalize accessors.findMember? name.1 = accessor at hfound hresolve
  cases hfound with
  | none => simp [imageFile?, hproject, hleaf, hresolve]
  | some hg => simp [imageFile?, hproject, hleaf, hresolve, hg.path]

end Viewpoint

theorem lookup_namespace {root cls accessors useRoot chain receiver leaf head : Node}
    {pictures : List Picture} {name : Word} (h : DeclaresPictures root cls accessors pictures)
    (huse : UsesPicture useRoot chain receiver leaf head name) {images file : FileId}
    {history : List Declarations.Change}
    (hfiles : (Declarations.current history).Perm [(images, root), (file, useRoot)]) :
    (Declarations.after history).lookup "R" = [⟨images, cls⟩] := by
  obtain ⟨member, call, callee, hcls⟩ := exists_holdsImage h.holder
  obtain ⟨-, hname⟩ := isClass_accessors h
  have hlisted : Declarations.listed [(images, root), (file, useRoot)] "R" =
      [⟨images, cls⟩] := by
    have hnamed : cls.isNamed "R" = true := by simp [Node.isNamed, hcls.named]
    have hother : accessors.isNamed "R" = false := by simp [Node.isNamed, hname]
    have helsewhere : useRoot.topLevelDecls.filter (·.isNamed "R") = [] :=
      List.filter_eq_nil_iff.2 fun d hd => by simp [huse.elsewhere d hd]
    simp [Declarations.listed, topLevelDecls_pictures h, hnamed, hother, helsewhere]
  have hperm : (Declarations.listed (Declarations.current history) "R").Perm
      (Declarations.listed [(images, root), (file, useRoot)] "R") := hfiles.flatMap_right _
  rw [hlisted] at hperm
  rw [(Declarations.holds_after history).lookup]
  exact List.perm_singleton.1 hperm

theorem find?_leaf {pictures : List Picture} (h : (pictures.map Picture.leaf).Nodup) {p : Picture}
    (hp : p ∈ pictures) : pictures.find? (·.leaf.1 == p.leaf.1) = some p := by
  have hsome : (pictures.find? (·.leaf.1 == p.leaf.1)).isSome = true :=
    List.find?_isSome.2 ⟨p, hp, by simp⟩
  obtain ⟨q, hq⟩ := Option.isSome_iff_exists.1 hsome
  have hleaf : q.leaf = p.leaf := Subtype.ext (by simpa using List.find?_some hq)
  rw [hq, List.inj_on_of_nodup_map h (List.mem_of_find?_eq_some hq) hp hleaf]

theorem Viewpoint.imageFile?_of_pictures {view : Viewpoint}
    (hproject : view.project.recognized = true) (hsettings : view.settings = .initial)
    {pictures : List Picture} (hpictures : (pictures.map Picture.leaf).Nodup) (name : Word)
    {images : FileId} {history : List Declarations.Change}
    (hindex : view.index = Declarations.after history)
    (hfiles : (Declarations.current history).Perm
      [(images, (parse (picturesSource pictures)).root),
       (view.file, (parse (pictureUse name)).root)]) :
    ∃ chain, (parse (pictureUse name)).root.topLevelDecls.head?.bind Node.yielded? = some chain ∧
      (∀ p ∈ pictures, p.leaf = name →
        view.imageFile? chain = Asset.locate? view.store.contains view.project.root p.path.1
          view.settings.densityVariants) ∧
      ((∀ p ∈ pictures, p.leaf ≠ name) → view.imageFile? chain = none) := by
  have hroot : (parse (picturesSource pictures)).root.tree = .node .sourceFile
      [namespaceClass.written.tree, .leaf space, (accessorsClass pictures).written.tree] := by
    rw [parse_picturesSource]
    rfl
  have huseRoot : (parse (pictureUse name)).root.tree =
      .node .sourceFile [finalTree usedWord (useExpr name)] := by
    rw [parse_pictureUse]
    rfl
  obtain ⟨cls, accessors, hlibrary⟩ := exists_declaresPictures hroot rfl
  obtain ⟨chain, receiver, leaf, head, huse⟩ := exists_usesPicture huseRoot rfl
  have hlookup : view.index.lookup "R" = [⟨images, cls⟩] := by
    rw [hindex]
    exact lookup_namespace hlibrary huse hfiles
  have himage := imageFile?_eq_find hlibrary hlookup huse hproject hsettings
  refine ⟨chain, huse.yields, ?_, ?_⟩
  · rintro p hp rfl
    rw [himage, find?_leaf hpictures hp]
    rfl
  · intro hne
    have hnone : pictures.find? (·.leaf.1 == name.1) = none :=
      List.find?_eq_none.2 fun p hp => by simpa [Subtype.ext_iff] using hne p hp
    rw [himage, hnone]
    rfl

theorem Viewpoint.imageFile?_of_pictures_dense :
    let text := r"class R { static const image = _I(); } class _I { " ++
      r"String get icon => 'a/icon.png'; String get logo => 'a/logo.png'; }"
    let use := "final w = R.image.logo;"
    let history : List Declarations.Change :=
      [.add ⟨1⟩ (parse use).root, .add ⟨0⟩ (parse text).root]
    let store := (FileStore.empty.insert ⟨"/app/a/2.0x/logo.png"⟩ "").2
    let view : Viewpoint :=
      ⟨⟨⟨"/app"⟩, .initial, true⟩, store, .after history, ⟨1⟩, ⟨"/app/lib/a.dart"⟩⟩
    (Declarations.current history).Perm
        [(⟨0⟩, (parse text).root), (view.file, (parse use).root)] ∧
      ∃ chain, (parse use).root.topLevelDecls.head?.bind Node.yielded? = some chain ∧
        view.imageFile? chain = some ⟨"/app/a/2.0x/logo.png"⟩ := by
  intro text use history store view
  let pictures : List Picture :=
    [⟨⟨"icon", rfl⟩, ⟨"a/icon.png", rfl⟩⟩, ⟨⟨"logo", rfl⟩, ⟨"a/logo.png", rfl⟩⟩]
  have htext : picturesSource pictures = text := by decide +kernel
  have huse : pictureUse ⟨"logo", rfl⟩ = use := by decide +kernel
  have hfiles : (Declarations.current history).Perm
      [(⟨0⟩, (parse text).root), (view.file, (parse use).root)] := by
    have hcurrent : Declarations.current history =
        [(⟨1⟩, (parse use).root), (⟨0⟩, (parse text).root)] := by
      simp [history, Declarations.current, Declarations.Change.file]
    rw [hcurrent]
    exact .swap _ _ _
  have hlocate : Asset.locate? view.store.contains view.project.root "a/logo.png" true =
      some ⟨"/app/a/2.0x/logo.png"⟩ := by decide +kernel
  have hprinted := hfiles
  rw [← htext, ← huse] at hprinted
  obtain ⟨chain, hchain, hfound, -⟩ := @imageFile?_of_pictures view rfl rfl pictures (by decide)
    ⟨"logo", rfl⟩ ⟨0⟩ history rfl hprinted
  rw [huse] at hchain
  exact ⟨hfiles, chain, hchain,
    (hfound ⟨⟨"logo", rfl⟩, ⟨"a/logo.png", rfl⟩⟩ (by simp [pictures]) rfl).trans hlocate⟩

end CrossReference
