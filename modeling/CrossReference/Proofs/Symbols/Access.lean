import CrossReference.Proofs.Printing.Forms
import CrossReference.Proofs.Tree.Within
import CrossReference.Symbols.Resolution

namespace CrossReference

open Source

namespace Source.Node

variable {n object ref parent : Node}

theorem pairwise_index (above : List Level) (start index : Nat) (ts : List Tree) :
    (childrenFrom above start index ts).Pairwise fun a b => a.here.index < b.here.index := by
  induction ts generalizing start index with
  | nil => exact .nil
  | cons t ts ih =>
    cases t with
    | leaf t => exact ih _ _
    | node kind children =>
      refine .cons (fun c hc => ?_) (ih _ _)
      obtain ⟨before, after, hat⟩ := exists_childAt hc
      rw [hat.index]
      exact Nat.lt_of_lt_of_le (Nat.lt_succ_self index) (Nat.le_add_right _ _)

theorem isSame_of_siblings (h : n.children = [object, ref]) : object.isSame ref = false := by
  have hpairs := pairwise_index (n.here :: n.above) n.start 0 n.here.children
  rw [← children, h] at hpairs
  have hlt : object.here.index < ref.here.index := by simpa using hpairs
  simp [isSame, path, Nat.ne_of_lt hlt]

theorem isMemberName_of_firstExpr? (h : parent.firstExpr? = some ref) :
    ref.isMemberName parent = false := by
  simp [isMemberName, h, isSame]

structure Accesses (n object ref : Node) (name : String) : Prop where
  kind : n.kind = .memberExpr
  first : n.firstExpr? = some object
  last : n.trailingRef? = some ref
  parent : ref.parent? = some n
  refKind : ref.kind = .nameRef
  refName : ref.refName? = some name
  isMember : ref.isMemberName n = true

theorem Accesses.of_children {name : String} (hkind : n.kind = .memberExpr)
    (hchildren : n.children = [object, ref]) (hobject : object.kind.isExpr = true)
    (href : ref.kind = .nameRef) (hname : ref.refName? = some name) :
    Accesses n object ref name := by
  have hfirst : n.firstExpr? = some object := by simp [firstExpr?, exprs, hchildren, hobject]
  refine ⟨hkind, hfirst, ?_, parent?_of_mem_children (by simp [hchildren]), href, hname, ?_⟩
  · have hrefs : n.childrenOf .nameRef = [object].filter (·.kind == .nameRef) ++ [ref] := by
      rw [childrenOf, hchildren, ← List.singleton_append, List.filter_append]
      simp [href]
    simp [trailingRef?, hrefs]
  · simp [isMemberName, hkind, hfirst, isSame_of_siblings hchildren]

theorem exists_accesses {c : Chain} {w : Word} (h : n.tree = (Chain.member c w).tree) :
    ∃ object ref, Accesses n object ref w.1 ∧ object.tree = c.tree ∧
      n.chain? = object.chain?.map (· ++ [⟨w.1, ref, none⟩]) := by
  obtain ⟨object, ref, hchildren, hexprs, hobject, href, hchain⟩ := exists_object h
  have hexpr : object.kind.isExpr = true := by
    have hmem : object ∈ n.exprs := by simp [hexprs]
    simpa using (List.mem_filter.1 hmem).2
  exact ⟨object, ref, .of_children (kind_of_tree h) hchildren hexpr (kind_of_tree href)
    (refName?_word href), hobject, hchain⟩

end Source.Node

namespace Declarations

variable {n object ref parent : Node} {name : String}

def memberOf? (classOf : Located → Option Located) (object : Located) (name : String) :
    Option Located :=
  (classOf object).bind fun cls => (cls.node.findMember? name).map cls.beside

section Rules

variable (index : Declarations) (classOf : Located → Option Located) (file : FileId)

theorem resolveWith?_member (h : n.Accesses object ref name) :
    index.resolveWith? classOf ⟨file, ref⟩ = memberOf? classOf ⟨file, object⟩ name := by
  simp [resolveWith?, h.refName, h.parent, h.isMember, h.first, Located.beside, memberOf?]

theorem classOfExpr?_member (h : n.Accesses object ref name) :
    index.classOfExpr? classOf ⟨file, n⟩ =
      (memberOf? classOf ⟨file, object⟩ name).bind (index.classOfDecl? classOf) := by
  have hresolve := resolveWith?_member index classOf file h
  simp [classOfExpr?, Located.kind, h.kind, h.last, Located.beside, hresolve]

theorem resolve?_member (h : n.Accesses object ref name) :
    index.resolve? ⟨file, ref⟩ = memberOf? (index.classOf? typingDepth) ⟨file, object⟩ name := by
  have hkind : Located.kind ⟨file, ref⟩ = .nameRef := h.refKind
  rw [resolve?, resolveWithin?, if_pos hkind]
  exact resolveWith?_member index _ file h

theorem resolveWith?_first {w : Word} (href : ref.tree = w.tree)
    (hparent : ref.parent? = some parent) (hfirst : parent.firstExpr? = some ref) :
    index.resolveWith? classOf ⟨file, ref⟩ = index.resolveLexically? ⟨file, ref⟩ w.1 := by
  simp [resolveWith?, Node.refName?_word href, hparent, Node.isMemberName_of_firstExpr? hfirst,
    w.ne_this]

end Rules

end Declarations

end CrossReference
