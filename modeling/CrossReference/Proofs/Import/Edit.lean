import CrossReference.Proofs.Import.Line
import CrossReference.Proofs.Reading.Body

namespace CrossReference

open Source

namespace Source

def Tree.isNode : Tree → Bool
  | .node _ _ => true
  | .leaf _ => false

namespace Node

variable (above : List Level)

theorem childrenFrom_append (start index : Nat) (xs ys : List Tree) :
    childrenFrom above start index (xs ++ ys) =
      childrenFrom above start index xs ++
        childrenFrom above (start + Tree.sizeAll xs) (index + xs.length) ys := by
  induction xs generalizing start index with
  | nil => simp [childrenFrom, Tree.sizeAll]
  | cons x xs ih =>
    cases x with
    | node kind children =>
      simp [childrenFrom, Tree.sizeAll, Tree.size, ih, Nat.add_assoc, Nat.add_comm 1]
    | leaf t => simp [childrenFrom, Tree.sizeAll, Tree.size, ih, Nat.add_assoc, Nat.add_comm 1]

theorem map_tree_childrenFrom (start index : Nat) (ts : List Tree) :
    (childrenFrom above start index ts).map tree = ts.filter Tree.isNode := by
  induction ts generalizing start index with
  | nil => rfl
  | cons t ts ih =>
    cases t with
    | node kind children =>
      rw [List.filter_cons_of_pos rfl, ← ih]
      rfl
    | leaf t =>
      rw [List.filter_cons_of_neg Bool.false_ne_true, ← ih]
      rfl

end Node

theorem Parse.map_tree_children (p : Parse) :
    p.root.children.map Node.tree = p.items.filter Tree.isNode :=
  Node.map_tree_childrenFrom ..

end Source

namespace Import

def isLiteral : Tree → Bool
  | .node kind _ => kind == .stringLiteral
  | .leaf _ => false

def libraryOf? : Tree → Option String
  | .node .importDirective children => (children.find? isLiteral).map Tree.text
  | _ => none

def imports (uri : String) (tree : Tree) : Bool :=
  match libraryOf? tree with
  | some text => text == "'" ++ uri ++ "'" || text == "\"" ++ uri ++ "\""
  | none => false

def opensHead : Tree → Bool
  | .node .importDirective _ => true
  | .node .directive children => (Tree.tokensAll children).head?.any (·.kind != .partKw)
  | _ => false

theorem child?_text (n : Node) :
    (n.child? .stringLiteral).map Node.text = (n.here.children.find? isLiteral).map Tree.text := by
  have hfind (above : List Level) (start index : Nat) (ts : List Tree) :
      ((Node.childrenFrom above start index ts).find? (·.kind == .stringLiteral)).map Node.text =
        (ts.find? isLiteral).map Tree.text := by
    induction ts generalizing start index with
    | nil => rfl
    | cons t ts ih =>
      cases t with
      | node kind children =>
        by_cases hk : kind = .stringLiteral
        · simp [Node.childrenFrom, isLiteral, Node.kind, hk, Node.text, Node.tree]
        · simpa [Node.childrenFrom, isLiteral, Node.kind, hk] using ih _ _
      | leaf t => simpa [Node.childrenFrom, isLiteral] using ih _ _
  exact hfind ..

theorem library?_eq (n : Node) : library? n = libraryOf? n.tree := by
  rw [library?, child?_text]
  obtain ⟨⟨kind, children, start, index⟩, above⟩ := n
  by_cases hk : kind = .importDirective
  · simp [Node.kind, Node.tree, libraryOf?, hk]
  · have hnone : libraryOf? (.node kind children) = none := by
      cases kind <;> first | rfl | contradiction
    simp [Node.kind, Node.tree, hk, hnone]

theorem isHeader_eq (n : Node) : isHeader n = opensHead n.tree := by
  obtain ⟨⟨kind, children, start, index⟩, above⟩ := n
  cases kind <;> rfl

theorem imports_leaf (uri : String) (t : Token) : imports uri (.leaf t) = false := rfl

def nodes (p : Parse) : List Tree := p.root.children.map Node.tree

theorem nodes_eq (p : Parse) : nodes p = p.items.filter Tree.isNode := p.map_tree_children

theorem has_eq_nodes (p : Parse) (uri : String) : has p.root uri = (nodes p).any (imports uri) := by
  simp only [has, nodes, List.any_map, library?_eq]
  rfl

theorem has_eq (p : Parse) (uri : String) : has p.root uri = p.items.any (imports uri) := by
  rw [has_eq_nodes, nodes_eq, List.any_filter]
  congr 1
  funext tree
  cases tree <;> simp [Tree.isNode, imports_leaf]

theorem utf8ByteSize_ofList_cons (c : Char) (cs : List Char) :
    (String.ofList (c :: cs)).utf8ByteSize = c.utf8Size + (String.ofList cs).utf8ByteSize := by
  have h : String.ofList (c :: cs) = String.singleton c ++ String.ofList cs := by
    simp
  rw [h, String.utf8ByteSize_append, String.utf8ByteSize_singleton]

theorem splitBytes_append (x y : List Char) :
    splitBytes (String.ofList x).utf8ByteSize (x ++ y) = (x, y) := by
  induction x with
  | nil => cases y <;> simp [splitBytes]
  | cons c x ih =>
    have hpos := c.utf8Size_pos
    rw [List.cons_append, splitBytes, utf8ByteSize_ofList_cons, if_neg (by omega),
      Nat.add_sub_cancel_left, ih]

theorem byteSize_eq (ts : List Token) : byteSize ts = (String.ofList (chars ts)).utf8ByteSize := by
  rw [← utf8ByteSize_spelling, spelling_eq]

theorem insertAt_tokens (ts us : List Token) (piece : String) :
    insertAt (spelling (ts ++ us)) (byteSize ts) piece = spelling ts ++ piece ++ spelling us := by
  rw [insertAt, toList_spelling, chars_append, byteSize_eq, splitBytes_append, spelling_eq,
    spelling_eq]

theorem tree_mem {above : List Level} {start index : Nat} {ts : List Tree} {n : Node}
    (h : n ∈ Node.childrenFrom above start index ts) : n.tree ∈ ts ∧ n.tree.isNode := by
  have hmem := List.mem_map_of_mem (f := Node.tree) h
  rw [Node.map_tree_childrenFrom] at hmem
  exact List.mem_filter.1 hmem

theorem find?_eq_none {above : List Level} {start index : Nat} {ts : List Tree}
    (h : ∀ t ∈ ts, t.isNode → opensHead t) :
    (Node.childrenFrom above start index ts).find? (!isHeader ·) = none := by
  rw [List.find?_eq_none]
  intro n hn
  obtain ⟨hmem, hnode⟩ := tree_mem hn
  simp [isHeader_eq, h _ hmem hnode]

section Anchor

variable {p : Parse} {pre post : List Tree} {tree : Tree}

theorem anchor_body (hitems : p.items = pre ++ tree :: post)
    (hpre : ∀ t ∈ pre, t.isNode → opensHead t) (hnode : tree.isNode)
    (htree : opensHead tree = false) : anchor p.root = byteSize (Tree.tokensAll pre) := by
  cases tree with
  | leaf t => cases hnode
  | node kind children =>
    have hfind : p.root.children.find? (!isHeader ·) =
        some ⟨⟨kind, children, 0 + Tree.sizeAll pre, 0 + pre.length⟩, [p.root.here]⟩ := by
      change (Node.childrenFrom [p.root.here] 0 0 p.items).find? _ = _
      rw [hitems, Node.childrenFrom_append, List.find?_append, find?_eq_none hpre,
        Node.childrenFrom, List.find?_cons_of_pos]
      · rfl
      · rw [isHeader_eq, Node.tree, htree]
        rfl
    rw [anchor, hfind, ← Tree.sizeAll_eq]
    exact Nat.zero_add _

theorem anchor_end (h : ∀ t ∈ p.items, t.isNode → opensHead t) : anchor p.root = p.root.stop := by
  have hfind : p.root.children.find? (!isHeader ·) = none := find?_eq_none h
  rw [anchor, hfind]

end Anchor

theorem stop_root (tokens : List Token) : (Parse.ofTokens tokens).root.stop = byteSize tokens := by
  have htokens := Parse.tokens_tree tokens
  rw [Parse.tree, Tree.tokens] at htokens
  rw [Node.stop, Node.start, Parse.root, Node.ofRoot, Tree.sizeAll_eq, htokens, Nat.zero_add]

def lineEnd (text : String) : String :=
  match text.toList.getLast? with
  | some c => if c = '\n' then "" else "\n"
  | none => ""

theorem endsOpen_parse (text : String) :
    (if endsOpen (Source.parse text).root then "\n" else "") = lineEnd text := by
  have htokens := tokens_root_parse text
  have hchars : chars (Token.scan text) = text.toList := Token.chars_scanChars _
  rw [endsOpen, htokens, lineEnd, ← hchars]
  cases hl : (Token.scan text).getLast? with
  | none =>
    rw [List.getLast?_eq_none_iff.1 hl]
    rfl
  | some t =>
    obtain ⟨init, hinit⟩ := List.getLast?_eq_some_iff.1 hl
    have hne : t.text ≠ "" :=
      (Token.scans_scanChars text.toList).text_ne_empty t (List.mem_of_getLast? hl)
    obtain ⟨c, hc⟩ : ∃ c, t.text.toList.getLast? = some c := by
      cases ht : t.text.toList.getLast? with
      | none => exact absurd (String.toList_eq_nil_iff.1 (List.getLast?_eq_none_iff.1 ht)) hne
      | some c => exact ⟨c, rfl⟩
    have hlast : (chars (Token.scan text)).getLast? = some c := by
      rw [hinit, chars_append, chars_cons, chars_nil, List.append_nil, List.getLast?_append, hc]
      rfl
    rw [hlast]
    by_cases hn : c = '\n' <;> simp [hc, hn]

theorem extend?_eq {text uri : String} (hhas : has (Source.parse text).root uri = false) :
    extend? text uri =
      some (insertAt text (anchor (Source.parse text).root)
        ((if anchor (Source.parse text).root == (Source.parse text).root.stop &&
          endsOpen (Source.parse text).root then "\n" else "") ++ (line uri ++ "\n"))) := by
  simp [extend?, hhas, edit, editAt, String.append_assoc]

theorem extend?_end {text uri : String} (hhas : has (Source.parse text).root uri = false)
    (h : ∀ t ∈ (Source.parse text).items, t.isNode → opensHead t) :
    extend? text uri = some (text ++ lineEnd text ++ (line uri ++ "\n")) := by
  have hstop : (Source.parse text).root.stop = byteSize (Token.scan text) := stop_root _
  have hinsert := insertAt_tokens (Token.scan text) [] (lineEnd text ++ (line uri ++ "\n"))
  rw [List.append_nil, Token.spelling_scan] at hinsert
  rw [extend?_eq hhas, anchor_end h, beq_self_eq_true, Bool.true_and, endsOpen_parse, hstop,
    hinsert]
  simp [spelling, String.append_assoc]

theorem byteSize_pos {ts : List Token} (hne : ts ≠ []) (h : ∀ t ∈ ts, t.text ≠ "") :
    0 < byteSize ts := by
  cases ts with
  | nil => exact absurd rfl hne
  | cons t ts =>
    have ht := Token.size_pos (h t List.mem_cons_self)
    rw [byteSize_cons]
    omega

theorem extend?_body {text uri : String} {head rest : List Token} {pre post : List Tree}
    {tree : Tree} (hhas : has (Source.parse text).root uri = false)
    (hscan : Token.scan text = head ++ rest) (hrest : rest ≠ [])
    (hitems : (Source.parse text).items = pre ++ tree :: post)
    (htokens : Tree.tokensAll pre = head)
    (hpre : ∀ t ∈ pre, t.isNode → opensHead t) (hnode : tree.isNode)
    (htree : opensHead tree = false) :
    extend? text uri = some (spelling head ++ (line uri ++ "\n") ++ spelling rest) := by
  have hstop : (Source.parse text).root.stop = byteSize (Token.scan text) := stop_root _
  have hanchor : anchor (Source.parse text).root = byteSize head :=
    htokens ▸ anchor_body hitems hpre hnode htree
  have hpos : 0 < byteSize rest := by
    refine byteSize_pos hrest fun t ht => ?_
    refine (Token.scans_scanChars text.toList).text_ne_empty t ?_
    change t ∈ Token.scan text
    rw [hscan]
    exact List.mem_append_right _ ht
  have hbefore : (anchor (Source.parse text).root == (Source.parse text).root.stop) = false := by
    rw [hanchor, hstop, hscan, byteSize_append, beq_eq_false_iff_ne]
    omega
  have hinsert := insertAt_tokens head rest ("" ++ (line uri ++ "\n"))
  rw [← hscan, Token.spelling_scan] at hinsert
  rw [extend?_eq hhas, hbefore, Bool.false_and, hanchor]
  simpa using hinsert

end Import

end CrossReference
