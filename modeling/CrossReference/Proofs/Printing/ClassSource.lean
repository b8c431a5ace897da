import CrossReference.Proofs.Printing.Class
import CrossReference.Proofs.Printing.NameChain

namespace CrossReference.Source

open Token (sign space keyword)

def contextualWords : List String :=
  ["get", "set", "operator", "external", "covariant", "Function", "sync", "async", "enum",
   "extension", "mixin", "typedef"]

abbrev PlainName := { word : Word // word.1 ∉ contextualWords }

inductive MemberSource where
  | field (type : PlainName) (first : PlainName × NameChain) (more : List (PlainName × NameChain))
  | getter (type name : PlainName) (value : NameChain)
  | method (type name : PlainName) (params : List (PlainName × PlainName)) (value : NameChain)
  | constructor (params : List (PlainName × PlainName))

structure Declared where
  kind : NodeKind
  name : PlainName
  value : Option NameChain

structure Declared.Is (d : Declared) (n : Node) : Prop where
  kind : n.kind = d.kind
  name : n.declName? = some d.name.1.1
  value : Option.Rel NameChain.At d.value n.yielded?

namespace MemberSource

def printDeclarators (ds : List (PlainName × NameChain)) : String :=
  ", ".intercalate (ds.map fun d => d.1.1.1 ++ " = " ++ d.2.print)

def printParams (params : List (PlainName × PlainName)) : String :=
  ", ".intercalate (params.map fun p => p.1.1.1 ++ " " ++ p.2.1.1)

def print (owner : PlainName) : MemberSource → String
  | .field type first more =>
    "final " ++ type.1.1 ++ " " ++ printDeclarators (first :: more) ++ ";"
  | .getter type name value => type.1.1 ++ " get " ++ name.1.1 ++ " => " ++ value.print ++ ";"
  | .method type name params value =>
    type.1.1 ++ " " ++ name.1.1 ++ "(" ++ printParams params ++ r") { return " ++ value.print ++
      r"; }"
  | .constructor params => owner.1.1 ++ "(" ++ printParams params ++ ");"

def declared (owner : PlainName) : MemberSource → List Declared
  | .field _ first more => (first :: more).map fun d => ⟨.declarator, d.1, some d.2⟩
  | .getter _ name value => [⟨.getterDecl, name, some value⟩]
  | .method _ name _ value => [⟨.methodDecl, name, some value⟩]
  | .constructor _ => [⟨.constructorDecl, owner, none⟩]

end MemberSource

def classSource (name : PlainName) (members : List MemberSource) : String :=
  "class " ++ name.1.1 ++ r" {" ++ String.join (members.map fun m => " " ++ m.print name) ++
    r" }"

namespace PlainName

variable (name : PlainName)

theorem opensTyped : opensTyped name.1 = true := by
  have hname := name.2
  simp only [contextualWords] at hname
  simp only [Source.opensTyped]
  grind

theorem ne_of_mem (word : String) (h : word ∈ contextualWords) : name.1.1 ≠ word :=
  fun heq => name.2 (heq ▸ h)

end PlainName

namespace MemberSource

def asDeclarator (d : PlainName × NameChain) : Word × Expr := (d.1.1, .chain d.2.chain)

def asParam (p : PlainName × PlainName) : Word × Word := (p.1.1, p.2.1)

def written (owner : PlainName) : MemberSource → Written
  | .field type first more => typedField type.1 (asDeclarator first) (more.map asDeclarator)
  | .getter type name value => Source.getter type.1 name.1 (.chain value.chain)
  | .method type name params value =>
    Source.method type.1 name.1 (params.map asParam) (blockOf [returning (.chain value.chain)])
  | .constructor params => Source.constructor owner.1 (params.map asParam)

variable (owner : PlainName)

theorem readAs_written (m : MemberSource) :
    (m.written owner).ReadAs (.member (some owner.1.1)) := by
  have hparams (params : List (PlainName × PlainName)) :
      ∀ p ∈ params.map asParam, p.1.1 ≠ "covariant" :=
    List.forall_mem_map.2 fun p _ => p.1.ne_of_mem "covariant" (by decide)
  cases m with
  | field type first more =>
    exact readAs_typedField type.opensTyped (first.1.ne_of_mem "operator" (by decide)) _
  | getter type name value => exact readAs_getter type.opensTyped _ _
  | method type name params value =>
    have hname : name.1.1 ∉ ["operator", "Function"] := by
      simp [name.ne_of_mem "operator" (by decide),
        name.ne_of_mem "Function" (by decide)]
    exact readAs_method type.opensTyped hname (hparams params) fun _ _ =>
      leads_blockOf (List.forall_mem_singleton.2 (readAs_returning _))
  | constructor params =>
    exact readAs_constructor (isModifier_of_opensTyped owner.opensTyped) (hparams params)

theorem closed_written (m : MemberSource) : Closed (m.written owner).tokens := by
  cases m with
  | field type first more => exact closed_typedField _ _ _
  | getter type name value => exact closed_getter _ _ _
  | method type name params value =>
    exact closed_method _ _ _ (closed_blockOf (List.forall_mem_singleton.2 (closed_returning _)))
  | constructor params => exact closed_constructor _ _

theorem isNode_written (m : MemberSource) : (m.written owner).tree.isNode = true := by
  cases m <;> rfl

theorem toList_printDeclarators (ds : List (PlainName × NameChain)) :
    (printDeclarators ds).toList =
      chars (Written.separated (ds.map fun d => declarator (asDeclarator d))) := by
  simp [printDeclarators, String.toList_intercalate, Written.chars_separated, Function.comp_def,
    declarator, asDeclarator, declaratorTokens, Expr.tokens, NameChain.toList_print]

theorem toList_printParams (params : List (PlainName × PlainName)) :
    (printParams params).toList =
      chars (Written.separated (params.map fun p => param (asParam p))) := by
  simp [printParams, String.toList_intercalate, Written.chars_separated, Function.comp_def,
    param, asParam]

theorem toList_print (m : MemberSource) :
    (m.print owner).toList = chars (m.written owner).tokens := by
  cases m with
  | field type first more =>
    have hlist := toList_printDeclarators (first :: more)
    rw [List.map_cons] at hlist
    simp [print, written, typedField, hlist, Function.comp_def]
  | getter type name value =>
    simp [print, written, Source.getter, getWord, Expr.tokens, value.toList_print]
  | method type name params value =>
    simp [print, written, Source.method, toList_printParams, blockOf, returning, Written.behind,
      Expr.tokens, value.toList_print, Function.comp_def]
  | constructor params =>
    simp [print, written, Source.constructor, toList_printParams, Function.comp_def]

theorem declaredBy_written (m : MemberSource) {n : Node} (h : n.tree = (m.written owner).tree) :
    List.Forall₂ Declared.Is (m.declared owner) n.declaredBy := by
  have hchain {c : NameChain} {v : Node} (hv : v.tree = (Expr.chain c.chain).tree) : c.At v :=
    NameChain.at_of_tree hv
  cases m with
  | field type first more =>
    obtain ⟨hkind, htrees⟩ := Node.exists_declarators h
    have hall : List.Forall₂ (fun d n => n.tree = declaratorTree d.1.1 (.chain d.2.chain))
        (first :: more) (n.childrenOf .declarator) :=
      forall₂_of_map_eq (by simpa [asDeclarator, Function.comp_def] using htrees)
    simp only [declared, Node.declaredBy, hkind]
    refine List.forall₂_map_left_iff.2 (hall.imp fun d n hn => ?_)
    obtain ⟨v, -, hv, hyielded, hname⟩ := Node.exists_value hn
    exact ⟨Node.kind_of_tree hn, hname, hyielded ▸ .some (hchain hv)⟩
  | getter type name value =>
    obtain ⟨hkind, hname, v, hyielded, hv⟩ := Node.exists_getter h
    have his : Declared.Is ⟨.getterDecl, name, some value⟩ n :=
      ⟨hkind, hname, hyielded ▸ .some (hchain hv)⟩
    simpa [declared, Node.declaredBy, hkind] using his
  | method type name params value =>
    obtain ⟨hkind, hname, v, hyielded, hv⟩ := Node.exists_method h
    have his : Declared.Is ⟨.methodDecl, name, some value⟩ n :=
      ⟨hkind, hname, hyielded ▸ .some (hchain hv)⟩
    simpa [declared, Node.declaredBy, hkind] using his
  | constructor params =>
    obtain ⟨hkind, hname⟩ := Node.declName?_constructor h
    have hnone : n.yielded? = none := by simp [Node.yielded?, hkind]
    have his : Declared.Is ⟨.constructorDecl, owner, none⟩ n :=
      ⟨hkind, hname, hnone ▸ .none⟩
    simpa [declared, Node.declaredBy, hkind] using his

end MemberSource

def lineClass (name : PlainName) (members : List MemberSource) : LineClass where
  name := name.1
  members := members.map (·.written name)
  reads := List.forall_mem_map.2 fun m _ => m.readAs_written name
  closed := List.forall_mem_map.2 fun m _ => m.closed_written name
  isNode := List.forall_mem_map.2 fun m _ => m.isNode_written name

theorem toList_classSource (name : PlainName) (members : List MemberSource) :
    (classSource name members).toList = chars ((lineClass name members).lineTokens []) := by
  have hmembers : (String.join (members.map fun m => " " ++ m.print name)).toList =
      chars (Written.behind space (members.map (·.written name))) := by
    induction members with
    | nil => rfl
    | cons m members ih => simp [Written.behind, m.toList_print, ih]
  simp [classSource, LineClass.lineTokens, LineClass.written, lineClass, classAround, hmembers,
    Written.behind]

theorem parse_classSource (name : PlainName) (members : List MemberSource) :
    let file := parse (classSource name members)
    file.errors = [] ∧
      ∃ cls, file.root.topLevelDecls = [cls] ∧ cls.kind = .classDecl ∧
        cls.declName? = some name.1.1 ∧
        List.Forall₂ Declared.Is (members.flatMap (·.declared name)) cls.classMembers := by
  intro file
  have hparse : file = ⟨[(lineClass name members).written.tree], []⟩ :=
    (lineClass name members).parse_line [] (toList_classSource name members)
  have htrees : file.root.children.map Node.tree = [(lineClass name members).written.tree] := by
    rw [Parse.map_tree_children, hparse]
    rfl
  obtain ⟨cls, hchildren, hcls⟩ := List.map_eq_singleton_iff.1 htrees
  obtain ⟨hkind, hname, -⟩ := (lineClass name members).exists_members hcls
  refine ⟨congrArg Parse.errors hparse, cls, ?_, hkind, hname, ?_⟩
  · simp [Node.topLevelDecls, hchildren, hkind]
  · exact LineClass.forall₂_classMembers rfl (fun m _ hn => m.declaredBy_written name hn) hcls

end CrossReference.Source
