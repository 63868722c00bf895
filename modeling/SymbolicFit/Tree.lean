import SymbolicFit.Symbol

/-!
Expression trees. A node is named by its position in the order that visits a node before its
children and the children from left to right.
-/

namespace SymbolicFit

inductive Tree (α : Type) where
  | node (symbol : Symbol α) (children : List (Tree α))

namespace Tree

variable {α : Type}

def symbol : Tree α → Symbol α
  | node s _ => s

def children : Tree α → List (Tree α)
  | node _ cs => cs

mutual

def size : Tree α → Nat
  | node _ cs => 1 + sizes cs

def sizes : List (Tree α) → Nat
  | [] => 0
  | t :: ts => size t + sizes ts

end

mutual

/-- The number of nodes outside the children of leaves, which are never evaluated. -/
def reach : Tree α → Nat
  | node s cs => if s.isLeaf then 1 else 1 + reaches cs

def reaches : List (Tree α) → Nat
  | [] => 0
  | t :: ts => reach t + reaches ts

end

theorem sizes_append (ts us : List (Tree α)) : sizes (ts ++ us) = sizes ts + sizes us := by
  induction ts with
  | nil => simp [sizes]
  | cons t ts ih => simp [sizes, ih, Nat.add_assoc]

/-- The nodes of the pending trees, each followed by its descendants. -/
def visit : List (Tree α) → List (Tree α)
  | [] => []
  | node s cs :: pending => node s cs :: visit (cs ++ pending)
termination_by ts => sizes ts
decreasing_by simp only [sizes_append, sizes, size]; omega

/-- All nodes; the place of a node in this list is its position. -/
def nodes (t : Tree α) : List (Tree α) := visit [t]

def node? (t : Tree α) (id : Nat) : Option (Tree α) := t.nodes[id]?

mutual

/-- Changes the node at a position, if there is one. -/
def modify? (f : Tree α → Tree α) : Nat → Tree α → Option (Tree α)
  | 0, t => some (f t)
  | id + 1, node s cs => (modifyAmong? f id cs).map (node s)

def modifyAmong? (f : Tree α → Tree α) : Nat → List (Tree α) → Option (List (Tree α))
  | _, [] => none
  | id, t :: ts =>
    if id < t.size then (modify? f id t).map (· :: ts)
    else (modifyAmong? f (id - t.size) ts).map (t :: ·)

end

/-- The numbers carried by the leaves, in node order. -/
def numbers (t : Tree α) : List α := t.nodes.flatMap fun n => n.symbol.numbers

mutual

def same [Scalar α] : Tree α → Tree α → Bool
  | node s cs, node s' cs' => s.same s' && sameAll cs cs'

def sameAll [Scalar α] : List (Tree α) → List (Tree α) → Bool
  | [], [] => true
  | t :: ts, t' :: ts' => same t t' && sameAll ts ts'
  | _, _ => false

end

end Tree

end SymbolicFit
