import Mathlib.Data.List.Basic
import SymbolicFit.CompiledTree
import SymbolicFit.Proofs.NodeOrder
import SymbolicFit.Tunable

/-!
The tunable numbers of a tree as a list of parameters, and the laws by which they are read and
written. An exponent keeps its place in the node order but offers nothing to tune.
-/

namespace SymbolicFit

variable {α : Type}

namespace Symbol

/-- The parameters of a node at position `id`. -/
def slots (o : FitOptions) (id : Nat) : Symbol α → List (Parameter α)
  | constant v => if o.tunes id then [⟨id, .constant, v⟩] else []
  | column _ w _ _ | indicator _ _ w => if o.tunesWeights id then [⟨id, .columnWeight, w⟩] else []
  | factor _ ws =>
    if o.tunesWeights id then ws.map fun cw => ⟨id, .categoryWeight cw.1, cw.2⟩ else []
  | _ => []

theorem tunable_eq_slots (o : FitOptions) (id : Nat) (s : Symbol α) :
    s.tunable o id = (s.slots o id).map (·.initial) := by
  cases s <;> simp only [tunable, slots, List.map_nil] <;> split <;> simp

theorem isLeaf_of_takesExponent {s : Symbol α} (hs : s.takesExponent = true) :
    s.isLeaf = false := by
  cases s <;> first | rfl | cases hs

theorem slots_of_not_isLeaf {s : Symbol α} (hs : s.isLeaf = false) (o : FitOptions) (id : Nat) :
    s.slots o id = [] := by
  cases s <;> simp_all [isLeaf, slots]

end Symbol

namespace Tree

/-- Either the second of two children is an exponent, or all children are alike. -/
theorem exponent_cases (s : Symbol α) (cs : List (Tree α)) :
    (s.takesExponent = true ∧ ∃ base exponent, cs = [base, exponent]) ∨
      (s.takesExponent = true → cs.length ≠ 2) := by
  by_cases h : s.takesExponent = true ∧ cs.length = 2
  · exact Or.inl ⟨h.1, List.length_eq_two.1 h.2⟩
  · exact Or.inr fun hs hc => h ⟨hs, hc⟩

/-- The positions of the exponent under a node at position `id`. -/
def exponentOf (id : Nat) : Tree α → List Nat
  | node s [base, exponent] =>
    if s.takesExponent then List.range' (id + 1 + base.size) exponent.size else []
  | _ => []

/-- The positions inside exponents among trees, the first of which is at position `id`. -/
def exponentsFrom (id : Nat) (ts : List (Tree α)) : List Nat :=
  ((visit ts).zipIdx id).flatMap fun p => p.1.exponentOf p.2

/-- The parameters of all nodes outside exponents. -/
def slotsFrom (o : FitOptions) (id : Nat) (ts : List (Tree α)) : List (Parameter α) :=
  ((visit ts).zipIdx id).flatMap fun p =>
    if p.2 ∈ exponentsFrom id ts then [] else p.1.symbol.slots o p.2

/-- The parameters of a tree in node order: for each node outside exponents, its position and the
role and value of each of its tunable numbers. -/
def slots (t : Tree α) (o : FitOptions) : List (Parameter α) := slotsFrom o 0 [t]

theorem exponentOf_exponent {s : Symbol α} (hs : s.takesExponent = true) (id : Nat)
    (base exponent : Tree α) :
    (node s [base, exponent]).exponentOf id =
      List.range' (id + 1 + base.size) exponent.size := by
  rw [exponentOf, if_pos hs]

theorem exponentOf_other {s : Symbol α} {cs : List (Tree α)}
    (h : s.takesExponent = true → cs.length ≠ 2) (id : Nat) : (node s cs).exponentOf id = [] := by
  unfold exponentOf
  split
  · rename_i hn
    obtain ⟨rfl, rfl⟩ := Tree.node.inj hn
    exact if_neg fun hs => h hs rfl
  · rfl

theorem mem_exponentOf {id j : Nat} {s : Symbol α} {cs : List (Tree α)}
    (h : j ∈ (node s cs).exponentOf id) : id < j ∧ j < id + 1 + sizes cs := by
  rcases exponent_cases s cs with ⟨hs, base, exponent, rfl⟩ | hs
  · rw [exponentOf_exponent hs, List.mem_range'_1] at h
    simp only [sizes]
    omega
  · rw [exponentOf_other hs] at h
    cases h

theorem exponentsFrom_node_cons (id : Nat) (s : Symbol α) (cs pending : List (Tree α)) :
    exponentsFrom id (node s cs :: pending) =
      (node s cs).exponentOf id ++ exponentsFrom (id + 1) (cs ++ pending) := by
  simp [exponentsFrom, visit_node_cons]

theorem exponentsFrom_append (id : Nat) (ts us : List (Tree α)) :
    exponentsFrom id (ts ++ us) = exponentsFrom id ts ++ exponentsFrom (id + sizes ts) us := by
  simp [exponentsFrom, visit_append, List.zipIdx_append, length_visit]

theorem mem_exponentsFrom {id j : Nat} {ts : List (Tree α)} (h : j ∈ exponentsFrom id ts) :
    id < j ∧ j < id + sizes ts := by
  induction ts using visit.induct generalizing id with
  | case1 => simp [exponentsFrom] at h
  | case2 s cs pending ih =>
    rw [exponentsFrom_node_cons, List.mem_append] at h
    simp only [sizes, size]
    rcases h with h | h
    · have := mem_exponentOf h
      omega
    · have := ih h
      rw [sizes_append] at this
      omega

theorem mem_zipIdx_visit {id : Nat} {ts : List (Tree α)} {p : Tree α × Nat}
    (h : p ∈ (visit ts).zipIdx id) : id ≤ p.2 ∧ p.2 < id + sizes ts := by
  rw [← length_visit]
  exact ⟨List.le_snd_of_mem_zipIdx h, List.snd_lt_add_of_mem_zipIdx h⟩

theorem slotsFrom_append (o : FitOptions) (id : Nat) (ts us : List (Tree α)) :
    slotsFrom o id (ts ++ us) = slotsFrom o id ts ++ slotsFrom o (id + sizes ts) us := by
  rw [slotsFrom, visit_append, List.zipIdx_append, List.flatMap_append, length_visit]
  congr 1
  · refine List.flatMap_congr fun p hp => ?_
    have hj := mem_zipIdx_visit hp
    have hi : p.2 ∈ exponentsFrom id (ts ++ us) ↔ p.2 ∈ exponentsFrom id ts := by
      rw [exponentsFrom_append, List.mem_append]
      exact or_iff_left fun h => absurd (mem_exponentsFrom h).1 (by omega)
    simp only [hi]
  · refine List.flatMap_congr fun p hp => ?_
    have hj := mem_zipIdx_visit hp
    have hi : p.2 ∈ exponentsFrom id (ts ++ us) ↔ p.2 ∈ exponentsFrom (id + sizes ts) us := by
      rw [exponentsFrom_append, List.mem_append]
      exact or_iff_right fun h => absurd (mem_exponentsFrom h).2 (by omega)
    simp only [hi]

theorem slotsFrom_nil (o : FitOptions) (id : Nat) : slotsFrom (α := α) o id [] = [] := by
  simp [slotsFrom]

theorem slotsFrom_cons (o : FitOptions) (id : Nat) (t : Tree α) (ts : List (Tree α)) :
    slotsFrom o id (t :: ts) = slotsFrom o id [t] ++ slotsFrom o (id + t.size) ts := by
  have h := slotsFrom_append o id [t] ts
  rwa [List.singleton_append, sizes, sizes, Nat.add_zero] at h

/-- The parameters below a node, seen from the node. -/
theorem slotsFrom_node (o : FitOptions) (id : Nat) (s : Symbol α) (cs : List (Tree α)) :
    slotsFrom o id [node s cs] = s.slots o id ++ ((visit cs).zipIdx (id + 1)).flatMap fun p =>
      if p.2 ∈ (node s cs).exponentOf id ++ exponentsFrom (id + 1) cs then []
      else p.1.symbol.slots o p.2 := by
  have hid : id ∉ exponentsFrom id [node s cs] := fun h => absurd (mem_exponentsFrom h).1 (by omega)
  rw [slotsFrom, visit_node_cons, List.append_nil, List.zipIdx_cons, List.flatMap_cons,
    if_neg hid, exponentsFrom_node_cons, List.append_nil]
  rfl

theorem slotsFrom_other (o : FitOptions) (id : Nat) {s : Symbol α} {cs : List (Tree α)}
    (h : s.takesExponent = true → cs.length ≠ 2) :
    slotsFrom o id [node s cs] = s.slots o id ++ slotsFrom o (id + 1) cs := by
  rw [slotsFrom_node, exponentOf_other h, List.nil_append]
  rfl

theorem slotsFrom_exponent (o : FitOptions) (id : Nat) {s : Symbol α}
    (hs : s.takesExponent = true) (base exponent : Tree α) :
    slotsFrom o id [node s [base, exponent]] = slotsFrom o (id + 1) [base] := by
  rw [slotsFrom_node, Symbol.slots_of_not_isLeaf (Symbol.isLeaf_of_takesExponent hs),
    List.nil_append, exponentOf_exponent hs, visit_cons, List.zipIdx_append, List.flatMap_append,
    length_nodes]
  -- every position under the exponent is left out
  have he : (((visit [exponent]).zipIdx (id + 1 + base.size)).flatMap fun p =>
      if p.2 ∈ List.range' (id + 1 + base.size) exponent.size ++
        exponentsFrom (id + 1) [base, exponent] then []
      else p.1.symbol.slots o p.2) = [] := by
    refine List.flatMap_eq_nil_iff.2 fun p hp => ?_
    have hj := mem_zipIdx_visit hp
    simp only [sizes, Nat.add_zero] at hj
    exact if_pos (List.mem_append_left _ (List.mem_range'_1.2 hj))
  rw [he, List.append_nil]
  refine List.flatMap_congr fun p hp => ?_
  have hj := mem_zipIdx_visit hp
  have hi : p.2 ∈ List.range' (id + 1 + base.size) exponent.size ++
      exponentsFrom (id + 1) [base, exponent] ↔ p.2 ∈ exponentsFrom (id + 1) [base] := by
    have ha := exponentsFrom_append (id + 1) [base] [exponent]
    rw [List.singleton_append] at ha
    simp only [sizes, Nat.add_zero] at hj ha
    rw [ha, List.mem_append, List.mem_append, List.mem_range'_1]
    refine ⟨?_, fun h => Or.inr (Or.inl h)⟩
    rintro (h | h | h)
    · omega
    · exact h
    · exact absurd (mem_exponentsFrom h).1 (by omega)
  simp only [hi]

end Tree

end SymbolicFit
