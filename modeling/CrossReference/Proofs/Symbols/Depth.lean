import CrossReference.Proofs.Symbols.Access
import CrossReference.Proofs.Symbols.Growth
import CrossReference.Proofs.Tree.Children

namespace CrossReference

open Source (Node)

theorem Source.Node.Within.exists_accesses {text : String} {n : Node}
    (h : (Source.parse text).root.Within n) (hkind : n.kind = .memberExpr) :
    ∃ object ref name, n.Accesses object ref name := by
  obtain ⟨object, ref, hchildren, hobject, href⟩ := h.wellShaped.memberExpr hkind
  have hmem : ref ∈ n.children := by simp [hchildren]
  obtain ⟨word, hword, hwordKind⟩ := (h.child hmem).wellShaped.nameRef href
  have hsignificant : word.isTrivia = false := by
    simp only [List.mem_cons, List.not_mem_nil, or_false] at hwordKind
    rcases hwordKind with hk | hk | hk <;>
      simp [Source.Token.isTrivia, hk, Source.TokenKind.isTrivia]
  have hname : ref.refName? = some word.text := by
    simp [Node.refName?, href, Node.tokens, hword, Source.Tree.token?, hsignificant]
  exact ⟨object, ref, word.text, .of_children hkind hchildren hobject href hname⟩

namespace Declarations

variable {index : Declarations}

def TypedBy (index : Declarations) (decl : Node) (cls : Located) : Prop :=
  ∃ type, decl.declaredType? = some type ∧ index.lookup type = [cls] ∧ cls.kind = .classDecl

/-- A variable with a declared type, and `k` fields taken one after the other, each with a declared
type and found in the class before it. The value of the last one belongs to `cls`. -/
inductive FieldChain (index : Declarations) (file : FileId) : Nat → Node → Located → Prop
  | start {v : Node} {d cls : Located} :
      index.resolve? ⟨file, v⟩ = some d → d.kind = .declarator ∨ d.kind = .param →
      index.TypedBy d.node cls → FieldChain index file 0 v cls
  | field {k : Nat} {n object ref field : Node} {name : String} {cls cls' : Located} :
      FieldChain index file k object cls → Node.Accesses n object ref name →
      cls.node.findMember? name = some field → field.kind = .declarator →
      index.TypedBy field cls' → FieldChain index file (k + 1) n cls'

theorem TypedBy.classOfDecl? {decl cls : Located} (h : index.TypedBy decl.node cls)
    (hkind : decl.kind = .declarator ∨ decl.kind = .param) (classOf : Located → Option Located) :
    index.classOfDecl? classOf decl = some cls := by
  obtain ⟨type, htype, hlookup, hclass⟩ := h
  have hfound : index.lookupClass? type = some cls := by
    rw [lookupClass?, hlookup, List.find?_cons_of_pos (by simpa [Located.kind] using hclass)]
  rcases hkind with hkind | hkind <;> simp [Declarations.classOfDecl?, hkind, htype, hfound]

theorem resolveWith?_of_firstExpr? {v parent : Node} (hfirst : parent.firstExpr? = some v)
    (file : FileId) (classOf classOf' : Located → Option Located) :
    index.resolveWith? classOf ⟨file, v⟩ = index.resolveWith? classOf' ⟨file, v⟩ := by
  have hparent := Node.parent?_of_mem_children (Node.mem_children_of_firstExpr? hfirst)
  simp [resolveWith?, hparent, Node.isMemberName_of_firstExpr? hfirst]

theorem FieldChain.classOf? {file : FileId} {k : Nat} {object n ref : Node} {name : String}
    {cls : Located} (h : index.FieldChain file k object cls) (hn : n.Accesses object ref name)
    (depth : Nat) :
    index.classOf? depth ⟨file, object⟩ = if k < depth then some cls else none := by
  induction h generalizing n ref name depth with
  | @start v d cls hd hkind htyped =>
    cases depth with
    | zero => rfl
    | succ depth =>
      rw [resolve?, resolveWithin?] at hd
      split at hd
      · next hv =>
        have hresolve : index.resolveWith? (index.classOf? depth) ⟨file, v⟩ = some d :=
          (resolveWith?_of_firstExpr? hn.first file _ _).trans hd
        simp [Declarations.classOf?, classOfExpr?, hv, hresolve, htyped.classOfDecl? hkind]
      · cases hd
  | @field k object inner _ field _ cls cls' _ haccess hfield hkind htyped ih =>
    cases depth with
    | zero => rfl
    | succ depth =>
      rw [Declarations.classOf?, classOfExpr?_member index _ file haccess, memberOf?,
        ih haccess depth]
      by_cases hdepth : k < depth
      · have hbeside : index.TypedBy (cls.beside field).node cls' := htyped
        have hclass := hbeside.classOfDecl? (.inl hkind) (index.classOf? depth)
        simp [hdepth, hfield, hclass]
      · simp [hdepth]

/-- A lower bound gives the same declaration or none. The last of `k + 1` names behind a variable is
resolved through fields with declared types exactly when the bound is at least `k + 1`. -/
theorem resolveWithin?_only_cuts (index : Declarations) :
    (∀ depth depth' ref d, depth ≤ depth' → index.resolveWithin? depth ref = some d →
      index.resolveWithin? depth' ref = some d) ∧
    ∀ file k object cls n ref name field, index.FieldChain file k object cls →
      Node.Accesses n object ref name → cls.node.findMember? name = some field →
      (∀ depth, index.resolveWithin? depth ⟨file, ref⟩ =
        if k + 1 ≤ depth then some (cls.beside field) else none) ∧
      index.resolve? ⟨file, ref⟩ = if k + 1 ≤ 16 then some (cls.beside field) else none := by
  refine ⟨fun _ _ _ _ hdepth => (Grows.refl index).resolveWithin? hdepth, ?_⟩
  intro file k object cls n ref name field hchain haccess hfield
  have hexact (depth : Nat) : index.resolveWithin? depth ⟨file, ref⟩ =
      if k + 1 ≤ depth then some (cls.beside field) else none := by
    have hkind : Located.kind ⟨file, ref⟩ = .nameRef := haccess.refKind
    rw [resolveWithin?, if_pos hkind, resolveWith?_member index _ file haccess, memberOf?,
      hchain.classOf? haccess depth]
    by_cases hdepth : k < depth
    · simp [hdepth, Nat.succ_le_of_lt hdepth, hfield]
    · have hcut : ¬ k + 1 ≤ depth := hdepth
      simp only [hdepth, hcut, if_false, Option.bind_none]
  exact ⟨hexact, hexact typingDepth⟩

theorem resolveWithin?_only_cuts_long_chain :
    let library := (Source.parse "A v; class A { A n; }").root
    let use := (Source.parse "final x = v.n.n.n.n.n.n.n.n.n.n.n.n.n.n.n.n.n;").root
    let index := (empty.addFile ⟨0⟩ library).addFile ⟨1⟩ use
    ∃ object n ref cls field, index.FieldChain ⟨1⟩ 16 object cls ∧
      Node.Accesses n object ref "n" ∧ cls.node.findMember? "n" = some field ∧
      index.resolve? ⟨⟨1⟩, ref⟩ = none ∧
      index.resolveWithin? 17 ⟨⟨1⟩, ref⟩ = some (cls.beside field) := by
  intro library use index
  have hlength : (index.lookup "A").length = 1 := by decide +kernel
  obtain ⟨cls, hlookup⟩ := List.length_eq_one_iff.1 hlength
  have hlisted : ∀ l ∈ index.lookup "A", l.kind = .classDecl ∧
      ∃ f ∈ l.node.findMember? "n", f.kind = .declarator ∧ f.declaredType? = some "A" := by
    decide +kernel
  obtain ⟨hclass, field, hfield, hkind, htype⟩ := hlisted cls (by simp [hlookup])
  have htyped (d : Node) (hd : d.declaredType? = some "A") : index.TypedBy d cls :=
    ⟨"A", hd, hlookup, hclass⟩
  have hall : ∀ n ∈ use.descendants, n.kind = .memberExpr →
      n.trailingRef?.bind Node.refName? = some "n" ∧
      ∃ o ∈ n.firstExpr?, o.depth + 1 = n.depth ∧ (o.kind = .memberExpr ∨ o.depth = 0 ∧
        ∃ d ∈ index.resolve? ⟨⟨1⟩, o⟩, d.kind = .declarator ∧ d.node.declaredType? = some "A") := by
    decide +kernel
  have hstep (n : Node) (hn : use.Within n) (hkind : n.kind = .memberExpr) :
      ∃ object ref, Node.Accesses n object ref "n" ∧ use.Within object ∧
        object.depth + 1 = n.depth ∧ (object.kind = .memberExpr ∨
          object.depth = 0 ∧ index.FieldChain ⟨1⟩ 0 object cls) := by
    obtain ⟨object, ref, name, haccess⟩ := hn.exists_accesses hkind
    obtain ⟨hname, o, ho, hdepth, hobject⟩ := hall n (Node.mem_descendants_iff.2 hn) hkind
    obtain rfl : object = o := Option.some.inj (haccess.first.symm.trans ho)
    obtain rfl : name = "n" := by simpa [haccess.last, haccess.refName] using hname
    refine ⟨object, ref, haccess, hn.child (Node.mem_children_of_firstExpr? haccess.first), hdepth,
      hobject.imp_right fun ⟨hzero, d, hd, hdecl, htype⟩ => ⟨hzero, ?_⟩⟩
    exact .start hd (.inl hdecl) (htyped d.node htype)
  have hchain (k : Nat) : ∀ n, use.Within n → n.kind = .memberExpr → n.depth = k + 1 →
      ∃ object ref, Node.Accesses n object ref "n" ∧ index.FieldChain ⟨1⟩ k object cls := by
    induction k with
    | zero =>
      intro n hn hn' hdepth
      obtain ⟨object, ref, haccess, hobject, hless, hmember | ⟨-, hstart⟩⟩ := hstep n hn hn'
      · obtain ⟨_, _, -, -, hinner, -⟩ := hstep object hobject hmember
        omega
      · exact ⟨object, ref, haccess, hstart⟩
    | succ k ih =>
      intro n hn hn' hdepth
      obtain ⟨object, ref, haccess, hobject, hless, hmember | ⟨hzero, -⟩⟩ := hstep n hn hn'
      · obtain ⟨inner, _, hinner, hbefore⟩ := ih object hobject hmember (by omega)
        exact ⟨object, ref, haccess, .field hbefore hinner hfield hkind (htyped field htype)⟩
      · omega
  obtain ⟨n, hn, hmember, hdepth⟩ : ∃ n ∈ use.descendants, n.kind = .memberExpr ∧ n.depth = 17 := by
    decide +kernel
  obtain ⟨object, ref, haccess, hobject⟩ :=
    hchain 16 n (Node.mem_descendants_iff.1 hn) hmember hdepth
  obtain ⟨hexact, hsixteen⟩ := (resolveWithin?_only_cuts index).2 ⟨1⟩ 16 object cls n ref "n" field
    hobject haccess hfield
  exact ⟨object, n, ref, cls, field, hobject, haccess, hfield, hsixteen, hexact 17⟩

end Declarations

end CrossReference
