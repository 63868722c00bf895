import Mathlib
import SymbolicFit.Proofs.TunableLens

/-!
What a write leaves alone: the shape of the tree, and every symbol but those of tunable leaves,
which keep everything but their numbers.
-/

namespace SymbolicFit

variable {α : Type}

/-- The same leaf, up to its numbers. -/
inductive Symbol.Renumbered : Symbol α → Symbol α → Prop where
  | constant (v w : α) : Renumbered (.constant v) (.constant w)
  | column (name : String) (v w : α) (lag : Int) (index : Option Nat) :
    Renumbered (.column name v lag index) (.column name w lag index)
  | indicator (name category : String) (v w : α) :
    Renumbered (.indicator name category v) (.indicator name category w)
  | factor (name : String) {vs ws : List (String × α)} (h : ws.map (·.1) = vs.map (·.1)) :
    Renumbered (.factor name vs) (.factor name ws)

theorem Symbol.assign_renumbered (o : FitOptions) (id : Nat) (s : Symbol α) (ps : List α) :
    (s.assign o id ps).1 = s ∨
      id ∈ (s.slots o id).map (·.node) ∧ s.Renumbered (s.assign o id ps).1 := by
  cases s with
  | constant v =>
    cases ht : o.tunes id
    · exact .inl (by simp [assign, ht])
    · rw [assign_constant]
      exact .inr ⟨by simp [slots, ht], .constant _ _⟩
  | column name v lag index =>
    cases ht : o.tunesWeights id
    · exact .inl (by simp [assign, ht])
    · rw [assign_column]
      exact .inr ⟨by simp [slots, ht], .column _ _ _ _ _⟩
  | indicator name category v =>
    cases ht : o.tunesWeights id
    · exact .inl (by simp [assign, ht])
    · rw [assign_indicator]
      exact .inr ⟨by simp [slots, ht], .indicator _ _ _ _⟩
  | factor name ws =>
    cases ht : o.tunesWeights id
    · exact .inl (by simp [assign, ht])
    · rw [assign_factor, ht, if_pos rfl]
      cases ws with
      | nil => exact .inl rfl
      | cons cw ws => exact .inr ⟨by simp [slots, ht], .factor _ (map_fst_refill _ _)⟩
  | _ => exact .inl rfl

namespace Tree

/-- The nodes of two lists of trees are related one by one, from position `id` on. -/
def Nodewise (R : Nat → Tree α → Tree α → Prop) (id : Nat) (ts us : List (Tree α)) : Prop :=
  List.Forall₂ (fun p u => R p.2 p.1 u) ((visit ts).zipIdx id) (visit us)

namespace Nodewise

variable {R : Nat → Tree α → Tree α → Prop} {id : Nat} {ts us : List (Tree α)}

theorem refl (hR : ∀ id t, R id t t) (id : Nat) (ts : List (Tree α)) : Nodewise R id ts ts := by
  refine List.forall₂_iff_get.2 ⟨by simp, fun i hi hi' => ?_⟩
  simpa using hR _ _

theorem append {vs ws : List (Tree α)} (h : Nodewise R id ts us)
    (h' : Nodewise R (id + sizes ts) vs ws) : Nodewise R id (ts ++ vs) (us ++ ws) := by
  rw [Nodewise, visit_append, visit_append, List.zipIdx_append, length_visit]
  exact List.rel_append h h'

theorem node {s s' : Symbol α} (hR : R id (.node s ts) (.node s' us))
    (h : Nodewise R (id + 1) ts us) : Nodewise R id [.node s ts] [.node s' us] := by
  rw [Nodewise, visit_node_cons, visit_node_cons, List.append_nil, List.append_nil,
    List.zipIdx_cons]
  exact .cons hR h

theorem size_eq {t u : Tree α} (h : Nodewise R id [t] [u]) : u.size = t.size := by
  have hlength := h.length_eq
  rw [List.length_zipIdx] at hlength
  rw [← length_nodes, ← length_nodes]
  exact hlength.symm

theorem node?_eq_none {t u : Tree α} (h : Nodewise R 0 [t] [u]) {j : Nat}
    (hn : t.node? j = none) : u.node? j = none := by
  rw [Tree.node?, List.getElem?_eq_none_iff, length_nodes] at hn ⊢
  rwa [h.size_eq]

theorem exists_node? {t u : Tree α} (h : Nodewise R 0 [t] [u]) {j : Nat} {n : Tree α}
    (hn : t.node? j = some n) : ∃ n', u.node? j = some n' ∧ R j n n' := by
  obtain ⟨hj, hget⟩ := List.getElem?_eq_some_iff.1 hn
  have hj' : j < u.nodes.length := by rwa [length_nodes, h.size_eq, ← length_nodes]
  have hR := h.get (by rwa [List.length_zipIdx]) hj'
  simp only [List.get_eq_getElem, List.getElem_zipIdx, Nat.zero_add] at hR
  exact ⟨_, List.getElem?_eq_getElem hj', hget ▸ hR⟩

end Nodewise

mutual

/-- What a write keeps of each single tree it keeps of all nodes. -/
theorem assign_nodewise {o : FitOptions} {R : Nat → Tree α → Tree α → Prop}
    (hrefl : ∀ id n, R id n n) (hassign : ∀ id n ps, R id n (n.assign o id ps).1) :
    ∀ (t : Tree α) (id : Nat) (ps : List α), Nodewise R id [t] [(t.assign o id ps).1]
  | node s cs, id, ps => by
    have h := hassign id (node s cs) ps
    rcases exponent_cases s cs with ⟨hs, base, exponent, rfl⟩ | hs
    · rw [assign_exponent o id hs] at h ⊢
      exact .node h ((assign_nodewise hrefl hassign base (id + 1) ps).append (.refl hrefl _ _))
    · rw [assign_other o id hs] at h ⊢
      exact .node h (assignAmong_nodewise hrefl hassign cs (id + 1) _)

theorem assignAmong_nodewise {o : FitOptions} {R : Nat → Tree α → Tree α → Prop}
    (hrefl : ∀ id n, R id n n) (hassign : ∀ id n ps, R id n (n.assign o id ps).1) :
    ∀ (ts : List (Tree α)) (id : Nat) (ps : List α), Nodewise R id ts (assignAmong o id ts ps).1
  | [], id, _ => .refl hrefl id []
  | t :: ts, id, ps => by
    have hts := assignAmong_nodewise hrefl hassign ts (id + t.size) (t.assign o id ps).2
    rw [assignAmong_cons]
    exact (assign_nodewise hrefl hassign t id ps).append (by simpa [sizes] using hts)

end

/-- Node by node the same trees, but for the numbers of leaves at these places. -/
def RenumberedAt (places : List Nat) (id : Nat) (ts us : List (Tree α)) : Prop :=
  List.Forall₂ (fun p u => u.children.length = p.1.children.length ∧
    (u.symbol = p.1.symbol ∨ p.2 ∈ places ∧ p.1.symbol.Renumbered u.symbol))
    ((visit ts).zipIdx id) (visit us)

/-- The same node, but for the numbers of a leaf at one of these places. -/
def RenumberedIn (places : List Nat) (id : Nat) (n u : Tree α) : Prop :=
  u.children.length = n.children.length ∧
    (u.symbol = n.symbol ∨ id ∈ places ∧ n.symbol.Renumbered u.symbol)

theorem renumberedAt_iff {places : List Nat} {id : Nat} {ts us : List (Tree α)} :
    RenumberedAt places id ts us ↔ Nodewise (RenumberedIn places) id ts us := Iff.rfl

/-- The same tree, but for the numbers of its tunable leaves. -/
def Retuned (o : FitOptions) (t u : Tree α) : Prop :=
  RenumberedAt ((t.slots o).map (·.node)) 0 [t] [u]

namespace RenumberedAt

variable {places places' : List Nat} {id : Nat} {ts us : List (Tree α)}

theorem mono (h : RenumberedAt places id ts us) (hp : places ⊆ places') :
    RenumberedAt places' id ts us :=
  List.Forall₂.imp (fun _ _ hn => ⟨hn.1, hn.2.imp_right fun hr => ⟨hp hr.1, hr.2⟩⟩) h

theorem refl (places : List Nat) (id : Nat) (ts : List (Tree α)) :
    RenumberedAt places id ts ts :=
  renumberedAt_iff.2 (.refl (fun _ _ => ⟨rfl, .inl rfl⟩) id ts)

theorem append {vs ws : List (Tree α)} (h : RenumberedAt places id ts us)
    (h' : RenumberedAt places (id + sizes ts) vs ws) :
    RenumberedAt places id (ts ++ vs) (us ++ ws) :=
  renumberedAt_iff.2 ((renumberedAt_iff.1 h).append (renumberedAt_iff.1 h'))

theorem node {s s' : Symbol α} (hs : s' = s ∨ id ∈ places ∧ s.Renumbered s')
    (hl : us.length = ts.length) (h : RenumberedAt places (id + 1) ts us) :
    RenumberedAt places id [.node s ts] [.node s' us] :=
  renumberedAt_iff.2 (.node ⟨hl, hs⟩ (renumberedAt_iff.1 h))

end RenumberedAt

mutual

theorem assign_renumberedAt (o : FitOptions) : ∀ (t : Tree α) (id : Nat) (ps : List α),
    RenumberedAt ((slotsFrom o id [t]).map (·.node)) id [t] [(t.assign o id ps).1]
  | node s cs, id, ps => by
    rcases exponent_cases s cs with ⟨hs, base, exponent, rfl⟩ | hs
    · rw [assign_exponent o id hs, slotsFrom_exponent o id hs]
      exact .node (.inl rfl) rfl ((assign_renumberedAt o base (id + 1) ps).append (.refl _ _ _))
    · rw [assign_other o id hs, slotsFrom_other o id hs, List.map_append]
      refine .node ?_ (by rw [length_assignAmong])
        ((assignAmong_renumberedAt o cs (id + 1) _).mono (List.subset_append_right _ _))
      exact (s.assign_renumbered o id ps).imp_right fun h => ⟨List.mem_append_left _ h.1, h.2⟩

theorem assignAmong_renumberedAt (o : FitOptions) :
    ∀ (ts : List (Tree α)) (id : Nat) (ps : List α),
      RenumberedAt ((slotsFrom o id ts).map (·.node)) id ts (assignAmong o id ts ps).1
  | [], _, _ => .refl _ _ _
  | t :: ts, id, ps => by
    rw [assignAmong_cons, slotsFrom_cons, List.map_append]
    refine ((assign_renumberedAt o t id ps).mono (List.subset_append_left _ _)).append ?_
    simpa [sizes] using
      (assignAmong_renumberedAt o ts (id + t.size) _).mono (List.subset_append_right _ _)

end

theorem assign_retuned (o : FitOptions) (t : Tree α) (ps : List α) :
    t.Retuned o (t.assign o 0 ps).1 := assign_renumberedAt o t 0 ps

end Tree

end SymbolicFit
