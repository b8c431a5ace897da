import CrossReference.Proofs.Printing.Declaration
import Mathlib.Data.List.Forall2

namespace CrossReference.Source

inductive NameChain where
  | name (word : Word)
  | member (object : NameChain) (word : Word)
  | nameCall (word : Word) (args : List NameChain)
  | memberCall (object : NameChain) (word : Word) (args : List NameChain)

namespace NameChain

mutual

def print : NameChain → String
  | .name word => word.1
  | .member object word => object.print ++ "." ++ word.1
  | .nameCall word args => word.1 ++ "(" ++ printAll args ++ ")"
  | .memberCall object word args => object.print ++ "." ++ word.1 ++ "(" ++ printAll args ++ ")"

def printAll : List NameChain → String
  | [] => ""
  | [c] => c.print
  | c :: d :: rest => c.print ++ ", " ++ printAll (d :: rest)

end

mutual

inductive At : NameChain → Node → Prop
  | intro {c : NameChain} {n : Node} {segments : List Segment} :
      n.text = c.print → n.chain? = some segments → c.Segmented segments → At c n

inductive Segmented : NameChain → List Segment → Prop
  | name {word : Word} {ref : Node} :
      ref.text = word.1 → Segmented (.name word) [⟨word.1, ref, none⟩]
  | member {object : NameChain} {word : Word} {before : List Segment} {ref : Node} :
      object.Segmented before → ref.text = word.1 →
      Segmented (.member object word) (before ++ [⟨word.1, ref, none⟩])
  | nameCall {word : Word} {args : List NameChain} {ref call : Node} :
      ref.text = word.1 → CalledWith args call →
      Segmented (.nameCall word args) [⟨word.1, ref, some call⟩]
  | memberCall {object : NameChain} {word : Word} {args : List NameChain} {before : List Segment}
      {ref call : Node} :
      object.Segmented before → ref.text = word.1 → CalledWith args call →
      Segmented (.memberCall object word args) (before ++ [⟨word.1, ref, some call⟩])

inductive CalledWith : List NameChain → Node → Prop
  | nothing {call : Node} : call.callArgs? = none → CalledWith [] call
  | args {args : List NameChain} {call : Node} {nodes : List Node} :
      args ≠ [] → call.callArgs? = some nodes → List.Forall₂ At args nodes → CalledWith args call

end

mutual

def chain : NameChain → Chain
  | .name word => .name word
  | .member object word => .member object.chain word
  | .nameCall word args => .call (.name word) (exprs args)
  | .memberCall object word args => .call (.member object.chain word) (exprs args)

def exprs : List NameChain → List Expr
  | [] => []
  | c :: rest => .chain c.chain :: exprs rest

end

mutual

theorem toList_print : (c : NameChain) → c.print.toList = chars c.chain.tokens
  | .name word => by simp [print, chain, Chain.tokens]
  | .member object word => by simp [print, chain, Chain.tokens, object.toList_print]
  | .nameCall word args => by simp [print, chain, Chain.tokens, toList_printAll args]
  | .memberCall object word args => by
    simp [print, chain, Chain.tokens, object.toList_print, toList_printAll args]

theorem toList_printAll : (cs : List NameChain) →
    (printAll cs).toList = chars (Expr.tokensAll (exprs cs))
  | [] => rfl
  | [c] => c.toList_print
  | c :: d :: rest => by
    have hrest := toList_printAll (d :: rest)
    rw [exprs] at hrest
    simp [printAll, exprs, Expr.tokensAll, Expr.tokens, c.toList_print, hrest]

end

section Nodes

variable {n : Node}

theorem text_of_tree {c : NameChain} (h : n.tree = c.chain.tree) : n.text = c.print := by
  rw [Node.text, h, Tree.text, c.chain.tokens_tree, spelling_eq, ← c.toList_print,
    String.ofList_toList]

theorem text_of_word {w : Word} (h : n.tree = w.tree) : n.text = w.1 :=
  text_of_tree (c := .name w) h

theorem calledWith {callee : Chain} {args : List NameChain}
    (h : n.tree = (Chain.call callee (exprs args)).tree)
    (hargs : ∀ {nodes : List Node}, nodes.map Node.tree = (exprs args).map Expr.tree →
      List.Forall₂ At args nodes) : CalledWith args n := by
  obtain ⟨_, list, -, -, htrees, hfound⟩ := Node.exists_argList h
  cases args with
  | nil =>
    have hnone : list.exprs = [] := List.map_eq_nil_iff.1 htrees
    exact .nothing (by simpa [hnone] using hfound)
  | cons c rest =>
    have hsome : list.exprs ≠ [] := by
      intro hnone
      simp [hnone, exprs] at htrees
    exact .args (List.cons_ne_nil _ _) (by simpa [hsome] using hfound) (hargs htrees)

end Nodes

mutual

theorem segmented : (c : NameChain) → {n : Node} → n.tree = c.chain.tree →
    ∃ segments, n.chain? = some segments ∧ c.Segmented segments
  | .name word, n, hn => ⟨_, Node.chain?_word hn, .name (text_of_word hn)⟩
  | .member object word, n, hn => by
    obtain ⟨receiver, ref, -, -, hreceiver, href, hchain⟩ := Node.exists_object hn
    obtain ⟨before, hbefore, hsegmented⟩ := object.segmented hreceiver
    exact ⟨_, by rw [hchain, hbefore]; rfl, .member hsegmented (text_of_word href)⟩
  | .nameCall word args, n, hn => by
    obtain ⟨callee, hcallee, hchain⟩ := Node.exists_callee hn rfl
    refine ⟨[⟨word.1, callee, some n⟩], ?_, .nameCall (text_of_word hcallee)
      (calledWith hn (forall₂_at args))⟩
    rw [hchain, Node.chain?_word hcallee]
    rfl
  | .memberCall object word args, n, hn => by
    obtain ⟨callee, hcallee, hchain⟩ := Node.exists_callee hn rfl
    obtain ⟨receiver, ref, -, -, hreceiver, href, hmember⟩ := Node.exists_object hcallee
    obtain ⟨before, hbefore, hsegmented⟩ := object.segmented hreceiver
    refine ⟨before ++ [⟨word.1, ref, some n⟩], ?_, .memberCall hsegmented (text_of_word href)
      (calledWith hn (forall₂_at args))⟩
    rw [hchain, hmember, hbefore]
    exact Node.callLast?_append n before word.1 ref

theorem forall₂_at : (cs : List NameChain) → {ns : List Node} →
    ns.map Node.tree = (exprs cs).map Expr.tree → List.Forall₂ At cs ns
  | [], ns, hns => by
    rw [List.map_eq_nil_iff.1 hns]
    exact .nil
  | c :: rest, ns, hns => by
    obtain ⟨n, ns, rfl, hn, hns⟩ := List.map_eq_cons_iff.1 hns
    obtain ⟨segments, hchain, hsegmented⟩ := c.segmented hn
    exact .cons (.intro (text_of_tree hn) hchain hsegmented) (forall₂_at rest hns)

end

theorem at_of_tree {c : NameChain} {n : Node} (h : n.tree = c.chain.tree) : c.At n := by
  obtain ⟨segments, hchain, hsegmented⟩ := c.segmented h
  exact .intro (text_of_tree h) hchain hsegmented

theorem parse_chain (c : NameChain) :
    let file := parse ("final x = " ++ c.print ++ ";")
    file.errors = [] ∧
      ∃ n, file.root.topLevelDecls.head?.bind Node.yielded? = some n ∧ c.At n := by
  have hprint : c.print.toList = chars (Expr.chain c.chain).tokens := c.toList_print
  obtain ⟨n, hn, htree⟩ := exists_initializer hprint
  exact ⟨congrArg Parse.errors (parse_initializer hprint), n, hn, at_of_tree htree⟩

end NameChain

end CrossReference.Source
