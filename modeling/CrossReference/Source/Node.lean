import CrossReference.Source.Tree
import CrossReference.Text.Range

/-!
A node where it stands: the subtree, its first byte, and the levels above it. Two nodes of one file
are the same node when their paths agree.
-/

namespace CrossReference.Source

open Text (Range)

namespace Tree

mutual

def depth : Tree → Nat
  | .node _ children => depthAll children + 1
  | .leaf _ => 0

def depthAll : List Tree → Nat
  | [] => 0
  | t :: ts => max t.depth (depthAll ts)

end

end Tree

structure Level where
  kind : NodeKind
  children : List Tree
  start : Nat
  index : Nat

/-- `above` has the parent first and the root of the file last. -/
structure Node where
  here : Level
  above : List Level

namespace Node

def ofRoot (kind : NodeKind) (children : List Tree) : Node := ⟨⟨kind, children, 0, 0⟩, []⟩

def kind (n : Node) : NodeKind := n.here.kind

def start (n : Node) : Nat := n.here.start

def stop (n : Node) : Nat := n.start + Tree.sizeAll n.here.children

def range (n : Node) : Range := ⟨n.start, n.stop⟩

def tree (n : Node) : Tree := .node n.here.kind n.here.children

def text (n : Node) : String := n.tree.text

def depth (n : Node) : Nat := Tree.depthAll n.here.children

def path (n : Node) : List Nat := n.here.index :: n.above.map Level.index

def isSame (m n : Node) : Bool := m.path == n.path

def parent? (n : Node) : Option Node :=
  match n.above with
  | [] => none
  | l :: ls => some ⟨l, ls⟩

def strictAncestorsIn : List Level → List Node
  | [] => []
  | l :: ls => ⟨l, ls⟩ :: strictAncestorsIn ls

def strictAncestors (n : Node) : List Node := strictAncestorsIn n.above

def ancestors (n : Node) : List Node := n :: n.strictAncestors

def childrenFrom (above : List Level) (start index : Nat) : List Tree → List Node
  | [] => []
  | .node kind children :: ts =>
    ⟨⟨kind, children, start, index⟩, above⟩ ::
      childrenFrom above (start + Tree.sizeAll children) (index + 1) ts
  | .leaf t :: ts => childrenFrom above (start + t.size) (index + 1) ts

def children (n : Node) : List Node := childrenFrom (n.here :: n.above) n.start 0 n.here.children

def tokens (n : Node) : List Token := n.here.children.filterMap Tree.token?

def directTokensFrom (start : Nat) : List Tree → List (Token × Nat)
  | [] => []
  | .node _ children :: ts => directTokensFrom (start + Tree.sizeAll children) ts
  | .leaf t :: ts => (t, start) :: directTokensFrom (start + t.size) ts

def directTokens (n : Node) : List (Token × Nat) := directTokensFrom n.start n.here.children

def childrenOf (kind : NodeKind) (n : Node) : List Node := n.children.filter (·.kind == kind)

def child? (kind : NodeKind) (n : Node) : Option Node := n.children.find? (·.kind == kind)

def exprs (n : Node) : List Node := n.children.filter (·.kind.isExpr)

def firstExpr? (n : Node) : Option Node := n.exprs.head?

mutual

def preorder (above : List Level) (start index : Nat) : Tree → List Node
  | .node kind children =>
    ⟨⟨kind, children, start, index⟩, above⟩ ::
      preorderAll (⟨kind, children, start, index⟩ :: above) start 0 children
  | .leaf _ => []

def preorderAll (above : List Level) (start index : Nat) : List Tree → List Node
  | [] => []
  | t :: ts => preorder above start index t ++ preorderAll above (start + t.size) (index + 1) ts

end

def descendants (n : Node) : List Node :=
  n :: preorderAll (n.here :: n.above) n.start 0 n.here.children

mutual

def outermostIn {α : Type} (f : Node → Option α) (above : List Level) (start index : Nat) :
    Tree → List α
  | .node kind children =>
    match f ⟨⟨kind, children, start, index⟩, above⟩ with
    | some a => [a]
    | none => outermostAll f (⟨kind, children, start, index⟩ :: above) start 0 children
  | .leaf _ => []

def outermostAll {α : Type} (f : Node → Option α) (above : List Level) (start index : Nat) :
    List Tree → List α
  | [] => []
  | t :: ts =>
    outermostIn f above start index t ++ outermostAll f above (start + t.size) (index + 1) ts

end

/-- What `f` gives for the nodes below `n` in source order, where nothing below a node for which it
gives something is looked at. -/
def outermost {α : Type} (f : Node → Option α) (n : Node) : List α :=
  match f n with
  | some a => [a]
  | none => outermostAll f (n.here :: n.above) n.start 0 n.here.children

structure Leaf where
  token : Token
  start : Nat
  parent : Node

def Leaf.stop (l : Leaf) : Nat := l.start + l.token.size

mutual

def leavesIn (parent : Node) (start index : Nat) : Tree → List Leaf
  | .node kind children =>
    leavesAll ⟨⟨kind, children, start, index⟩, parent.here :: parent.above⟩ start 0 children
  | .leaf t => [⟨t, start, parent⟩]

def leavesAll (parent : Node) (start index : Nat) : List Tree → List Leaf
  | [] => []
  | t :: ts => leavesIn parent start index t ++ leavesAll parent (start + t.size) (index + 1) ts

end

def leaves (n : Node) : List Leaf := leavesAll n n.start 0 n.here.children

theorem depth_lt_of_mem_childrenFrom {above : List Level} {start index : Nat} {ts : List Tree}
    {c : Node} (h : c ∈ childrenFrom above start index ts) : c.depth < Tree.depthAll ts := by
  induction ts generalizing start index with
  | nil => simp [childrenFrom] at h
  | cons t ts ih =>
    cases t with
    | leaf t => exact Nat.lt_of_lt_of_le (ih h) (Nat.le_max_right ..)
    | node kind children =>
      rw [childrenFrom, List.mem_cons] at h
      cases h with
      | inl h =>
        subst h
        exact Nat.lt_of_lt_of_le (Nat.lt_succ_self _) (Nat.le_max_left ..)
      | inr h => exact Nat.lt_of_lt_of_le (ih h) (Nat.le_max_right ..)

theorem depth_lt_of_mem_children {n c : Node} (h : c ∈ n.children) : c.depth < n.depth :=
  depth_lt_of_mem_childrenFrom h

theorem depth_lt_of_mem_exprs {n c : Node} (h : c ∈ n.exprs) : c.depth < n.depth :=
  depth_lt_of_mem_children (List.mem_filter.1 h).1

end Node

end CrossReference.Source
