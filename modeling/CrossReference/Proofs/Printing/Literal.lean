import CrossReference.Proofs.Printing.Declaration

namespace CrossReference.Source

namespace Quotation

def printMore : List (Blanks × Quotation) → String
  | [] => ""
  | (gap, p) :: more => gap.1 ++ p.print ++ printMore more

theorem toList_printMore (more : List (Blanks × Quotation)) :
    (printMore more).toList = chars (adjacent more) := by
  induction more with
  | nil => rfl
  | cons e more ih =>
    have hprint : printMore (e :: more) = e.1.1 ++ e.2.print ++ printMore more := rfl
    have hadjacent : adjacent (e :: more) = e.1.token :: e.2.token :: adjacent more := rfl
    simp [hprint, hadjacent, ih, token]

theorem filter_adjacent (more : List (Blanks × Quotation)) :
    (adjacent more).filter (·.kind == .string) = more.map (·.2.token) := by
  induction more with
  | nil => rfl
  | cons e more ih =>
    have hadjacent : adjacent (e :: more) = e.1.token :: e.2.token :: adjacent more := rfl
    have hgap : e.1.token.kind = .whitespace := rfl
    simp [hadjacent, hgap, ih]

theorem mapM_unquote? (ps : List Quotation) :
    (ps.map token).mapM (fun t => Literal.unquote? t.text) = some (ps.map value) := by
  induction ps with
  | nil => rfl
  | cons p ps ih =>
    rw [List.map_cons, List.mapM_cons, p.unquote?_token, ih]
    rfl

theorem stringValue?_strings {n : Node} {first : Quotation} {more : List (Blanks × Quotation)}
    (h : n.tree = (Expr.strings first more).tree) :
    n.stringValue? = some (String.join ((first :: more.map Prod.snd).map value)) := by
  have htokens : n.tokens = first.token :: adjacent more := by
    rw [Node.tokens_of_tree h]
    simp [Tree.token?, Function.comp_def]
  have hstrings : n.tokens.filter (·.kind == .string) = (first :: more.map Prod.snd).map token := by
    simp [htokens, filter_adjacent, Function.comp_def]
  rw [Node.stringValue?, if_pos (Node.kind_of_tree h), hstrings]
  dsimp only
  rw [mapM_unquote?]
  rfl

end Quotation

theorem Node.preorderAll_leaves (above : List Level) (start index : Nat) (ts : List Token) :
    preorderAll above start index (ts.map .leaf) = [] := by
  induction ts generalizing start index with
  | nil => rfl
  | cons t ts ih => simp [preorderAll, preorder, ih]

theorem exists_only_literal (first : Quotation) (more : List (Blanks × Quotation)) :
    ∃ n, (Node.ofRoot .sourceFile [finalTree variableWord (.strings first more)]).descendants.filter
        (·.kind == .stringLiteral) = [n] ∧ n.tree = (Expr.strings first more).tree := by
  simp only [Node.descendants, Node.ofRoot, Node.preorderAll, Node.preorder, finalTree,
    declaratorTree, Expr.tree, Node.preorderAll_leaves]
  exact ⟨_, rfl, rfl⟩

theorem stringValue?_of_quotations (first : Quotation) (more : List (Blanks × Quotation)) :
    let file := parse ("final x = " ++ (first.print ++ Quotation.printMore more) ++ ";")
    file.errors = [] ∧
      ∃ n, file.root.descendants.filter (·.kind == .stringLiteral) = [n] ∧
        n.stringValue? = some (String.join ((first :: more.map Prod.snd).map Quotation.value)) := by
  have hprint : (first.print ++ Quotation.printMore more).toList =
      chars (Expr.strings first more).tokens := by
    simp [Expr.tokens, Quotation.toList_printMore, Quotation.token]
  obtain ⟨n, honly, htree⟩ := exists_only_literal first more
  rw [parse_initializer hprint]
  exact ⟨rfl, n, honly, Quotation.stringValue?_strings htree⟩

end CrossReference.Source
