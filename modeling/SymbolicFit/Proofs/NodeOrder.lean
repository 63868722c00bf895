import Mathlib.Tactic.Common
import SymbolicFit.Tree

/-!
The node order of trees: the nodes of a tree are itself and then those of its children, and a tree
whose leaves are bare is evaluated as a whole.
-/

namespace SymbolicFit

/-- A factor lists each of its categories once. -/
def Symbol.DistinctCategories {α : Type} (s : Symbol α) : Prop :=
  ∀ name ws, s = factor name ws → (ws.map (·.1)).Nodup

namespace Tree

variable {α : Type}

@[simp] theorem visit_nil : visit ([] : List (Tree α)) = [] := by rw [visit]

theorem visit_node_cons (s : Symbol α) (cs pending : List (Tree α)) :
    visit (node s cs :: pending) = node s cs :: visit (cs ++ pending) := by rw [visit]

theorem visit_append (ts us : List (Tree α)) : visit (ts ++ us) = visit ts ++ visit us := by
  induction ts using visit.induct with
  | case1 => simp
  | case2 s cs pending ih => simp [visit_node_cons, ← ih]

theorem visit_cons (t : Tree α) (ts : List (Tree α)) : visit (t :: ts) = t.nodes ++ visit ts :=
  visit_append [t] ts

theorem visit_eq_flatMap (ts : List (Tree α)) : visit ts = ts.flatMap nodes := by
  induction ts with
  | nil => simp
  | cons t ts ih => rw [visit_cons, ih, List.flatMap_cons]

theorem nodes_node (s : Symbol α) (cs : List (Tree α)) :
    (node s cs).nodes = node s cs :: visit cs := by
  rw [nodes, visit_node_cons, List.append_nil]

@[simp] theorem length_visit (ts : List (Tree α)) : (visit ts).length = sizes ts := by
  induction ts using visit.induct with
  | case1 => simp [sizes]
  | case2 s cs pending ih =>
    rw [visit_node_cons, List.length_cons, ih, sizes_append, sizes, size]
    omega

@[simp] theorem length_nodes (t : Tree α) : t.nodes.length = t.size := by
  simp [nodes, length_visit, sizes]

/-- No leaf has children. -/
def LeavesBare (t : Tree α) : Prop := ∀ n ∈ t.nodes, n.symbol.isLeaf = true → n.children = []

theorem forall_mem_nodes {P : Tree α → Prop} {s : Symbol α} {cs : List (Tree α)} :
    (∀ n ∈ (node s cs).nodes, P n) ↔ P (node s cs) ∧ ∀ c ∈ cs, ∀ n ∈ c.nodes, P n := by
  simp only [nodes_node, visit_eq_flatMap, List.mem_cons, List.mem_flatMap, or_imp, forall_and,
    forall_eq]
  exact and_congr_right fun _ => ⟨fun h c hc n hn => h n ⟨c, hc, hn⟩,
    fun h n ⟨c, hc, hn⟩ => h c hc n hn⟩

theorem leavesBare_node {s : Symbol α} {cs : List (Tree α)} :
    (node s cs).LeavesBare ↔ (s.isLeaf = true → cs = []) ∧ ∀ c ∈ cs, c.LeavesBare :=
  forall_mem_nodes

/-- Every factor lists each of its categories once. -/
def DistinctCategories (t : Tree α) : Prop := ∀ n ∈ t.nodes, n.symbol.DistinctCategories

theorem distinctCategories_node {s : Symbol α} {cs : List (Tree α)} :
    (node s cs).DistinctCategories ↔ s.DistinctCategories ∧ ∀ c ∈ cs, c.DistinctCategories :=
  forall_mem_nodes

mutual

/-- The nodes outside the children of leaves, in node order. -/
def reached : Tree α → List (Tree α)
  | node s cs => node s cs :: if s.isLeaf then [] else reachedAmong cs

def reachedAmong : List (Tree α) → List (Tree α)
  | [] => []
  | t :: ts => reached t ++ reachedAmong ts

end

mutual

theorem length_reached : ∀ t : Tree α, t.reached.length = t.reach
  | node s cs => by
    rw [reached, reach, List.length_cons]
    split_ifs
    · rfl
    · rw [length_reachedAmong cs, Nat.add_comm]

theorem length_reachedAmong : ∀ ts : List (Tree α), (reachedAmong ts).length = reaches ts
  | [] => rfl
  | t :: ts => by
    rw [reachedAmong, reaches, List.length_append, length_reached t, length_reachedAmong ts]

end

mutual

theorem mem_nodes_of_reached : ∀ (t : Tree α) {n : Tree α}, n ∈ t.reached → n ∈ t.nodes
  | node s cs, n, h => by
    rw [reached, List.mem_cons] at h
    rw [nodes_node, List.mem_cons]
    refine h.imp_right fun hn => ?_
    split_ifs at hn
    · cases hn
    · exact mem_visit_of_reachedAmong cs hn

theorem mem_visit_of_reachedAmong : ∀ (ts : List (Tree α)) {n : Tree α},
    n ∈ reachedAmong ts → n ∈ visit ts
  | t :: ts, n, h => by
    rw [reachedAmong, List.mem_append] at h
    rw [visit_cons, List.mem_append]
    exact h.imp (mem_nodes_of_reached t) (mem_visit_of_reachedAmong ts)

end

mutual

theorem reached_eq_nodes : ∀ t : Tree α, t.LeavesBare → t.reached = t.nodes
  | node s cs, h => by
    obtain ⟨hl, hc⟩ := leavesBare_node.1 h
    rw [reached, nodes_node]
    split_ifs with hs
    · rw [hl hs, visit_nil]
    · rw [reachedAmong_eq_visit cs hc]

theorem reachedAmong_eq_visit : ∀ ts : List (Tree α), (∀ t ∈ ts, t.LeavesBare) →
    reachedAmong ts = visit ts
  | [], _ => visit_nil.symm
  | t :: ts, h => by
    obtain ⟨ht, hts⟩ := List.forall_mem_cons.1 h
    rw [reachedAmong, visit_cons, reached_eq_nodes t ht, reachedAmong_eq_visit ts hts]

end

theorem reach_eq_size (t : Tree α) (h : t.LeavesBare) : t.reach = t.size := by
  rw [← length_reached, reached_eq_nodes t h, length_nodes]

end Tree

end SymbolicFit
