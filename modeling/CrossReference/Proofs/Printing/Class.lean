import CrossReference.Proofs.Printing.Member
import Mathlib.Data.List.Forall2

namespace CrossReference.Source

open Token (Scans sign space line indent keyword)
open Lookahead Step Grammar

def classAround (name : Word) (inner : List Token) : List Token :=
  [keyword .classKw, space, name.token, space, sign .lBrace] ++ (inner ++ [sign .rBrace])

def classAroundTree (name : Word) (inner : List Tree) : Tree :=
  .node .classDecl
    [.leaf (keyword .classKw), .leaf space, nameTree name, .leaf space,
     .node .classBody (.leaf (sign .lBrace) :: (inner ++ [.leaf (sign .rBrace)]))]

def classTokens (name : Word) (members : List Token) : List Token :=
  classAround name (members ++ [line])

def classTree (name : Word) (members : List Tree) : Tree :=
  classAroundTree name (members ++ [.leaf line])

def memberLoop (owner : Option String) : Act :=
  Written.readUntilBrace (.member owner) "expected a class member"

def ReadIn (owner : String) (inner : List Token) (trees : List Tree) : Prop :=
  ∀ ⦃xs : List Tree⦄ ⦃rest : List Token⦄,
    Leads body (inOrder [memberLoop (some owner), expect .rBrace]) xs
      (inner ++ sign .rBrace :: rest) (xs ++ (trees ++ [.leaf (sign .rBrace)])) rest

theorem readIn_members {owner : String} {gap close : Token} (hgap : gap.isTrivia = true)
    (hclose : close.isTrivia = true) {ws : List Written}
    (h : ∀ w ∈ ws, w.ReadAs (.member (some owner))) :
    ReadIn owner (Written.behind gap ws ++ [close])
      (Written.treesBehind gap ws ++ [.leaf close]) := by
  intro xs rest
  have hinner : Leads body (inOrder [memberLoop (some owner), expect .rBrace]) xs
      (Written.behind gap ws ++ close :: sign .rBrace :: rest) _ rest :=
    .andThen (Written.leads_behind hgap hclose h) (reads_expect_after hclose rfl rfl)
  simpa using hinner

def ReadAsMembers (members : List Token) (trees : List Tree) : Prop :=
  ∀ ⦃owner : String⦄, ReadIn owner (members ++ [line]) (trees ++ [.leaf line])

theorem readAsMembers_nil : ReadAsMembers [] [] := by
  intro owner
  have hnone : ReadIn owner (Written.behind line [] ++ [line])
      (Written.treesBehind line [] ++ [.leaf line]) := readIn_members rfl rfl (by simp)
  exact hnone

theorem leads_class (name : Word) {inner : List Token} {trees : List Tree}
    (h : ReadIn name.1 inner trees) {gap rest : List Token} (hgap : ∀ g ∈ gap, g.isTrivia)
    {xs : List Tree} :
    Leads body (.call .item) xs (gap ++ (classAround name inner ++ rest))
      (xs ++ gap.map .leaf ++ [classAroundTree name trees]) rest := by
  have hbody {xs : List Tree} : Leads body (classBody (some name.1)) xs
      (space :: sign .lBrace :: (inner ++ sign .rBrace :: rest)) _ _ :=
    .node_after rfl rfl (.andThen (.take rfl) (@h _ _))
  have htokens : gap ++ (classAround name inner ++ rest) =
      gap ++ keyword .classKw :: space :: name.token :: space :: sign .lBrace ::
        (inner ++ sign .rBrace :: rest) := by
    simp [classAround]
  rw [htokens]
  refine .call (.look ?_)
  rw [significant_gap hgap rfl]
  refine .call (.node_gap hgap rfl (.andThen (.look .done) (.andThen (reads_expect rfl rfl) ?_)))
  refine .look (.andThen (leads_name name) (.andThen (.pass rfl) ?_))
  exact .andThen (.repeatStop rfl) (.look hbody)

def listAndMethod (element field name callee : Word) (value : Expr) (args : List Expr) :
    List Written :=
  [listField element field value, method voidWord name [] (blockOf [calling callee args])]

section ListAndMethod

variable {element field name callee : Word}

theorem readAsMembers_listAndMethod (hfield : field.1 ≠ "operator")
    (hname : name.1 ∉ ["operator", "Function"]) (hcallee : callee.1 ≠ "Function")
    (value : Expr) (args : List Expr) :
    ReadAsMembers (Written.behind indent (listAndMethod element field name callee value args))
      (Written.treesBehind indent (listAndMethod element field name callee value args)) := by
  intro owner
  have hcalls : ∀ s ∈ [calling callee args], s.ReadAs .statement :=
    List.forall_mem_singleton.2 (readAs_calling hcallee args)
  have hmethod : (method voidWord name [] (blockOf [calling callee args])).ReadAs
      (.member (some owner)) :=
    readAs_method rfl hname (by simp) fun _ _ => leads_blockOf hcalls
  refine readIn_members rfl rfl (List.forall_mem_cons.2 ⟨?_, List.forall_mem_singleton.2 hmethod⟩)
  exact readAs_listField element hfield value

theorem scans_listAndMethod (element field name callee : Word) (value : Expr) (args : List Expr)
    (y : List Char) :
    Scans (chars (Written.behind indent (listAndMethod element field name callee value args)) ++ y)
      (Written.behind indent (listAndMethod element field name callee value args)) y := by
  have hcalls : ∀ s ∈ [calling callee args], Closed s.tokens :=
    List.forall_mem_singleton.2 (closed_calling callee args)
  have hmethod := closed_method voidWord name [] (closed_blockOf hcalls)
  have hmembers : ∀ w ∈ listAndMethod element field name callee value args, Closed w.tokens :=
    List.forall_mem_cons.2 ⟨closed_listField element field value,
      List.forall_mem_singleton.2 hmethod⟩
  exact Written.scans_behind (fun _ => Token.stands_indent) hmembers y

end ListAndMethod

section Scans

theorem scans_class (name : Word) {inner : List Token}
    (h : ∀ y, Scans (chars inner ++ '}' :: y) inner ('}' :: y)) (y : List Char) :
    Scans (chars (classAround name inner) ++ y) (classAround name inner) y := by
  have hend : Scans (chars (inner ++ [sign .rBrace]) ++ y) _ y :=
    .join (h _) (.cons (Token.stands_loose (by decide) _) (.done y))
  refine .cons (Token.stands_keyword (by decide) rfl) ?_
  refine .cons (Token.stands_space (name.head_nonblank _ _)) (.cons (name.stands rfl) ?_)
  exact .cons (Token.stands_space rfl) (.cons (Token.stands_loose (by decide) _) hend)

theorem scans_lines {members : List Token} (h : ∀ y, Scans (chars members ++ y) members y)
    (y : List Char) :
    Scans (chars (members ++ [line]) ++ '}' :: y) (members ++ [line]) ('}' :: y) :=
  .join (h _) (.cons (Token.stands_line rfl) (.done _))

end Scans

def emptyTokens : List Word → List Token
  | [] => []
  | name :: names => classTokens name [] ++ line :: emptyTokens names

def emptyTrees : List Word → List Tree
  | [] => []
  | name :: names => classTree name [] :: .leaf line :: emptyTrees names

section File

variable {members : List Token} {trees : List Tree}

theorem ofTokens_class (name : Word) (h : ReadIn name.1 members trees) {rest : List Token}
    {items : List Tree} (hrest : Parse.ofTokens rest = ⟨items, []⟩) {gap : List Token}
    (hgap : ∀ g ∈ gap, g.isTrivia) :
    Parse.ofTokens (gap ++ (classAround name members ++ rest)) =
      ⟨gap.map .leaf ++ classAroundTree name trees :: items, []⟩ := by
  have hsome : significant (gap ++ (classAround name members ++ rest)) ≠ [] := by
    rw [classAround, List.cons_append, List.cons_append, significant_gap hgap rfl]
    exact List.cons_ne_nil _ _
  have hmoved : rest.length ≠ (gap ++ (classAround name members ++ rest)).length := by
    simp [classAround]
    omega
  rw [Parse.ofTokens_of_leads hsome (leads_class name h hgap) hmoved hrest]
  simp

theorem ofTokens_classes (names : List Word) (last : Word) (h : ReadAsMembers members trees)
    (gap : List Token) (hgap : ∀ g ∈ gap, g.isTrivia) :
    Parse.ofTokens (gap ++ (emptyTokens names ++ classTokens last members)) =
      ⟨gap.map .leaf ++ (emptyTrees names ++ [classTree last trees]), []⟩ := by
  -- The line end behind a class is the gap before the next one.
  induction names generalizing gap with
  | nil =>
    have hlast : Parse.ofTokens (gap ++ (classTokens last members ++ [])) = _ :=
      ofTokens_class last (@h last.1) rfl hgap
    rw [List.append_nil] at hlast
    exact hlast
  | cons name names ih =>
    have hline : ∀ g ∈ [line], g.isTrivia := by decide
    have hrest := ofTokens_class name (@readAsMembers_nil name.1) (ih [line] hline) hgap
    simpa [emptyTokens, emptyTrees, classTokens, classTree] using hrest

theorem scans_classes (names : List Word) (last : Word)
    (h : ∀ y, Token.Scans (chars members ++ y) members y) :
    Token.Scans (chars (emptyTokens names ++ classTokens last members) ++ [])
      (emptyTokens names ++ classTokens last members) [] := by
  have hlast := scans_class last (scans_lines h) []
  induction names with
  | nil => exact hlast
  | cons name names ih =>
    have hstart : (chars (emptyTokens names ++ classTokens last members) ++ []).head?.any
        (!Token.isBlank ·) = true := by
      cases names <;> rfl
    rw [emptyTokens, List.append_assoc]
    exact .join (scans_class name (scans_lines fun _ => .done _) _)
      (.cons (Token.stands_line hstart) ih)

theorem parse_classes (names : List Word) (last : Word) (h : ReadAsMembers members trees)
    (hscans : ∀ y, Token.Scans (chars members ++ y) members y) {text : String}
    (htext : text.toList = chars (emptyTokens names ++ classTokens last members)) :
    (parse text).items = emptyTrees names ++ [classTree last trees] := by
  have hparse := ofTokens_classes names last h [] (by simp)
  rw [List.nil_append] at hparse
  rw [parse, scan_eq_of_scans htext (scans_classes names last hscans), hparse]
  rfl

end File

namespace Node

variable {n : Node} {name : Word} {trees : List Tree}

theorem exists_classBody (h : n.tree = classAroundTree name trees) :
    ∃ label b, n.children = [label, b] ∧ label.kind = .name ∧ b.kind = .classBody ∧
      b.children.map tree = trees.filter Tree.isNode ∧ n.declName? = some name.1 := by
  have htrees : n.children.map tree = [nameTree name, .node .classBody
      (.leaf (sign .lBrace) :: (trees ++ [.leaf (sign .rBrace)]))] := by
    rw [map_tree_children h]
    rfl
  obtain ⟨label, b, hchildren, hlabel, hb⟩ := exists_pair htrees
  have hmembers : b.children.map tree = trees.filter Tree.isNode := by
    rw [map_tree_children hb]
    simp
  refine ⟨label, b, hchildren, kind_of_tree hlabel, kind_of_tree hb, hmembers, ?_⟩
  refine declName?_of_child (by rw [kind_of_tree h]; rfl) ?_ hlabel
  simp [child?, hchildren, kind_of_tree hlabel]

def declaredBy (member : Node) : List Node :=
  match member.kind with
  | .fieldDecl => member.childrenOf .declarator
  | .methodDecl | .getterDecl | .constructorDecl => [member]
  | _ => []

theorem classMembers_eq (cls : Node) :
    cls.classMembers = ((cls.childrenOf .classBody).flatMap children).flatMap declaredBy := rfl

end Node

theorem forall₂_of_map_eq {α β γ : Type} {f : α → γ} {g : β → γ} {xs : List α} {ys : List β}
    (h : ys.map g = xs.map f) : List.Forall₂ (fun x y => g y = f x) xs ys := by
  have heq : List.Forall₂ Eq (ys.map g) (xs.map f) := by
    rw [List.forall₂_eq_eq_eq]
    exact h
  exact (List.forall₂_map_right_iff.1 (List.forall₂_map_left_iff.1 heq)).flip

structure LineClass where
  name : Word
  members : List Written
  reads : ∀ w ∈ members, w.ReadAs (.member (some name.1))
  closed : ∀ w ∈ members, Closed w.tokens
  isNode : ∀ w ∈ members, w.tree.isNode = true

namespace LineClass

def written (c : LineClass) : Written where
  tokens := classAround c.name (Written.behind space c.members ++ [space])
  tree := classAroundTree c.name (Written.treesBehind space c.members ++ [.leaf space])

def lineTokens (first : LineClass) (more : List LineClass) : List Token :=
  first.written.tokens ++ Written.behind space (more.map written)

theorem closed_written (c : LineClass) : Closed c.written.tokens := by
  refine ⟨fun _ => rfl, scans_class c.name fun y => ?_⟩
  exact .join (Written.scans_behind (fun _ => Token.stands_space) c.closed _)
    (.cons (Token.stands_space rfl) (.done _))

theorem ofTokens_cons (c : LineClass) {rest : List Token} {items : List Tree}
    (hrest : Parse.ofTokens rest = ⟨items, []⟩) {gap : List Token} (hgap : ∀ g ∈ gap, g.isTrivia) :
    Parse.ofTokens (gap ++ (c.written.tokens ++ rest)) =
      ⟨gap.map .leaf ++ c.written.tree :: items, []⟩ :=
  ofTokens_class c.name (readIn_members rfl rfl c.reads) hrest hgap

theorem ofTokens_behind (more : List LineClass) :
    Parse.ofTokens (Written.behind space (more.map written)) =
      ⟨Written.treesBehind space (more.map written), []⟩ := by
  induction more with
  | nil => rfl
  | cons c more ih =>
    have hcons := c.ofTokens_cons ih Written.isTrivia_gap
    simpa [Written.behind, Written.treesBehind] using hcons

theorem parse_line (first : LineClass) (more : List LineClass) {text : String}
    (htext : text.toList = chars (lineTokens first more)) :
    parse text = ⟨first.written.tree :: Written.treesBehind space (more.map written), []⟩ := by
  have hscans : Scans (chars (lineTokens first more) ++ []) (lineTokens first more) [] :=
    .join (first.closed_written.scans _) (Written.scans_behind (fun _ => Token.stands_space)
      (List.forall_mem_map.2 fun c _ => c.closed_written) [])
  have hparse : Parse.ofTokens ([] ++ (first.written.tokens ++
      Written.behind space (more.map written))) = _ :=
    first.ofTokens_cons (ofTokens_behind more) (by simp)
  rw [parse, scan_eq_of_scans htext hscans]
  simpa [lineTokens] using hparse

theorem exists_members (c : LineClass) {n : Node} (h : n.tree = c.written.tree) :
    n.kind = .classDecl ∧ n.declName? = some c.name.1 ∧
      ∃ ms : List Node, ms.map Node.tree = c.members.map Written.tree ∧
        n.classMembers = ms.flatMap Node.declaredBy := by
  obtain ⟨label, b, hchildren, hlabel, hb, hmembers, hname⟩ := Node.exists_classBody h
  have hnodes := Written.filter_treesBehind Tree.isNode_leaf space c.isNode
  refine ⟨Node.kind_of_tree h, hname, b.children, ?_, ?_⟩
  · simpa [hnodes] using hmembers
  · have hbody : n.childrenOf .classBody = [b] := by
      simp [Node.childrenOf, hchildren, hlabel, hb]
    rw [Node.classMembers_eq, hbody, List.flatMap_singleton]

theorem forall₂_classMembers {c : LineClass} {α β : Type} {write : α → Written} {xs : List α}
    (hc : c.members = xs.map write) {f : α → List β} {R : β → Node → Prop}
    (hR : ∀ x (m : Node), m.tree = (write x).tree → List.Forall₂ R (f x) m.declaredBy) {n : Node}
    (h : n.tree = c.written.tree) : List.Forall₂ R (xs.flatMap f) n.classMembers := by
  obtain ⟨-, -, ms, hms, hmembers⟩ := c.exists_members h
  rw [hc, List.map_map] at hms
  rw [hmembers]
  exact List.rel_flatMap (forall₂_of_map_eq hms) hR

end LineClass

end CrossReference.Source
