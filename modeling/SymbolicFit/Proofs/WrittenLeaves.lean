import Mathlib
import SymbolicFit.Proofs.CompiledSlots
import SymbolicFit.Proofs.TunedTrees

/-!
Each parameter is written into the leaf it was taken from, where no leaf has children. Below a leaf
the compiler numbers no nodes but the write does, so the two may disagree there and still count the
same parameters.
-/

namespace SymbolicFit

variable {α : Type}

/-- The parameter with another initial value. -/
def Parameter.reset (q : Parameter α) (v : α) : Parameter α := { q with initial := v }

namespace Symbol

theorem getElem?_refill {ws : List (String × α)} {ps : List α} {k : Nat} {cw : String × α} {v : α}
    (hw : ws[k]? = some cw) (hv : ps[k]? = some v) : (refill ws ps).1[k]? = some (cw.1, v) := by
  induction ws generalizing ps k with
  | nil => cases hw
  | cons cw' ws ih =>
    cases ps with
    | nil => cases hv
    | cons p ps =>
      cases k with
      | zero =>
        cases hw
        cases hv
        rfl
      | succ k => exact ih hw hv

variable {o : FitOptions} {id k : Nat} {s : Symbol α} {ps : List α} {q : Parameter α}

theorem mem_slots (h : q ∈ s.slots o id) : q.node = id ∧ o.tunes id = true := by
  have hweights : o.tunesWeights id = true → o.tunes id = true :=
    fun h => (Bool.and_eq_true_iff.1 h).2
  cases s with
  | constant v =>
    cases ht : o.tunes id <;> simp_all [slots]
  | column | indicator =>
    cases ht : o.tunesWeights id <;> simp_all [slots]
  | factor name ws =>
    cases ht : o.tunesWeights id
    · simp [slots, ht] at h
    · simp only [slots, ht, if_true, List.mem_map] at h
      obtain ⟨cw, -, rfl⟩ := h
      exact ⟨rfl, hweights ht⟩
  | _ => cases h

/-- A write gives each parameter of a symbol the value in its place. -/
theorem slots_assign {v : α} (hq : (s.slots o id)[k]? = some q) (hv : ps[k]? = some v) :
    ((s.assign o id ps).1.slots o id)[k]? = some (q.reset v) := by
  have hsingle : ∀ {b : Bool} {r : Parameter α}, (if b then [r] else [])[k]? = some q →
      b = true ∧ k = 0 ∧ r = q := by
    rintro (_ | _) r h
    · cases h
    · cases k with
      | zero => exact ⟨rfl, rfl, Option.some.inj h⟩
      | succ k => cases h
  have hhead : ∀ w, k = 0 → ps.headD w = v := by
    rintro w rfl
    cases ps with
    | nil => cases hv
    | cons p ps => exact Option.some.inj hv
  cases s with
  | constant w =>
    obtain ⟨ht, rfl, rfl⟩ := hsingle hq
    rw [assign_constant, ht, if_pos rfl, hhead w rfl, slots, ht]
    rfl
  | column name w lag index =>
    obtain ⟨ht, rfl, rfl⟩ := hsingle hq
    rw [assign_column, ht, if_pos rfl, hhead w rfl, slots, ht]
    rfl
  | indicator name category w =>
    obtain ⟨ht, rfl, rfl⟩ := hsingle hq
    rw [assign_indicator, ht, if_pos rfl, hhead w rfl, slots, ht]
    rfl
  | factor name ws =>
    rw [slots] at hq
    cases ht : o.tunesWeights id
    · rw [ht] at hq
      cases hq
    · rw [ht, if_pos rfl, List.getElem?_map, Option.map_eq_some_iff] at hq
      obtain ⟨cw, hcw, rfl⟩ := hq
      rw [assign_factor, ht, if_pos rfl, slots, ht, if_pos rfl, List.getElem?_map,
        getElem?_refill hcw hv]
      rfl
  | _ => cases hq

end Symbol

namespace Tree

variable {o : FitOptions}

/-- Two nodes at the position of a parameter have it in the same place, in the second one with this
value. -/
def Rewrites (o : FitOptions) (q : Parameter α) (v : α) (n n' : Tree α) : Prop :=
  ∃ i : Nat, (n.symbol.slots o q.node)[i]? = some q ∧
    (n'.symbol.slots o q.node)[i]? = some (q.reset v)

mutual

theorem assign_rewrites : ∀ (t : Tree α) (id : Nat) (ps : List α) {k : Nat} {q : Parameter α}
    {v : α}, (slotsFrom o id [t])[k]? = some q → ps[k]? = some v → ∃ j n n',
      q.node = id + j ∧ t.nodes[j]? = some n ∧ (t.assign o id ps).1.nodes[j]? = some n' ∧
      Rewrites o q v n n'
  | node s cs, id, ps, k, q, v, hq, hv => by
    rcases exponent_cases s cs with ⟨hs, base, exponent, rfl⟩ | hs
    · rw [slotsFrom_exponent o id hs] at hq
      obtain ⟨j, n, n', hj, hn, hn', h⟩ := assign_rewrites base (id + 1) ps hq hv
      refine ⟨j + 1, n, n', by omega, ?_, ?_, h⟩
      · rw [nodes_node, List.getElem?_cons_succ, visit_cons]
        rwa [List.getElem?_append_left (List.getElem?_eq_some_iff.1 hn).1]
      · rw [assign_exponent o id hs, nodes_node, List.getElem?_cons_succ, visit_cons]
        rwa [List.getElem?_append_left (List.getElem?_eq_some_iff.1 hn').1]
    · rw [slotsFrom_other o id hs] at hq
      rw [assign_other o id hs]
      by_cases hk : k < (s.slots o id).length
      · rw [List.getElem?_append_left hk] at hq
        have hid := (Symbol.mem_slots (List.mem_of_getElem? hq)).1
        refine ⟨0, node s cs, _, hid, by rw [nodes_node]; rfl, by rw [nodes_node]; rfl, k, ?_, ?_⟩
        · rwa [hid]
        · rw [hid]
          exact Symbol.slots_assign hq hv
      · have hle : (s.slots o id).length ≤ k := Nat.le_of_not_lt hk
        rw [List.getElem?_append_right hle] at hq
        have hv' : (s.assign o id ps).2[k - (s.slots o id).length]? = some v := by
          rw [Symbol.assign_snd, Symbol.tunable_eq_slots, List.length_map, List.getElem?_drop,
            Nat.add_sub_cancel' hle, hv]
        obtain ⟨j, n, n', hj, hn, hn', h⟩ := assignAmong_rewrites cs (id + 1) _ hq hv'
        refine ⟨j + 1, n, n', by omega, ?_, ?_, h⟩
        · rwa [nodes_node, List.getElem?_cons_succ]
        · rwa [nodes_node, List.getElem?_cons_succ]

theorem assignAmong_rewrites : ∀ (ts : List (Tree α)) (id : Nat) (ps : List α) {k : Nat}
    {q : Parameter α} {v : α}, (slotsFrom o id ts)[k]? = some q → ps[k]? = some v →
      ∃ j n n', q.node = id + j ∧ (visit ts)[j]? = some n ∧
        (visit (assignAmong o id ts ps).1)[j]? = some n' ∧ Rewrites o q v n n'
  | [], id, ps, k, q, v, hq, hv => by
    rw [slotsFrom_nil] at hq
    cases hq
  | t :: ts, id, ps, k, q, v, hq, hv => by
    rw [slotsFrom_cons] at hq
    rw [assignAmong_cons, visit_cons, visit_cons]
    by_cases hk : k < (slotsFrom o id [t]).length
    · rw [List.getElem?_append_left hk] at hq
      obtain ⟨j, n, n', hj, hn, hn', h⟩ := assign_rewrites t id ps hq hv
      refine ⟨j, n, n', hj, ?_, ?_, h⟩
      · rwa [List.getElem?_append_left (List.getElem?_eq_some_iff.1 hn).1]
      · rwa [List.getElem?_append_left (List.getElem?_eq_some_iff.1 hn').1]
    · have hle : (slotsFrom o id [t]).length ≤ k := Nat.le_of_not_lt hk
      rw [List.getElem?_append_right hle] at hq
      have hv' : (t.assign o id ps).2[k - (slotsFrom o id [t]).length]? = some v := by
        rw [assign_snd, tunable_eq_slotsFrom, List.length_map, List.getElem?_drop,
          Nat.add_sub_cancel' hle, hv]
      obtain ⟨j, n, n', hj, hn, hn', h⟩ := assignAmong_rewrites ts (id + t.size) _ hq hv'
      refine ⟨t.size + j, n, n', by omega, ?_, ?_, h⟩
      · rwa [List.getElem?_append_right (by simp), length_nodes, Nat.add_sub_cancel_left]
      · rwa [List.getElem?_append_right (by simp), length_nodes, size_assign,
          Nat.add_sub_cancel_left]

end

theorem tunes_of_mem_slotsFrom {id : Nat} {ts : List (Tree α)} {q : Parameter α}
    (h : q ∈ slotsFrom o id ts) : o.tunes q.node = true := by
  obtain ⟨p, -, hq⟩ := List.mem_flatMap.1 h
  split_ifs at hq with he
  · cases hq
  · obtain ⟨hnode, ht⟩ := Symbol.mem_slots hq
    rwa [hnode]

/-- A write leaves every node alone that has no parameter. -/
theorem symbol_assign (t : Tree α) (ps : List α) {id : Nat}
    (h : ∀ q ∈ t.slots o, q.node ≠ id) :
    ((t.assign o 0 ps).1.node? id).map symbol = (t.node? id).map symbol := by
  have hr := renumberedAt_iff.1 (assign_retuned o t ps)
  cases hn : t.node? id with
  | none => rw [hr.node?_eq_none hn]
  | some n =>
    obtain ⟨n', hn', -, hs⟩ := hr.exists_node? hn
    rw [hn', Option.map_some, Option.map_some]
    refine congrArg some (hs.resolve_right fun hplace => ?_)
    obtain ⟨q, hq, hnode⟩ := List.mem_map.1 hplace.1
    exact h q hq hnode

theorem withParameters_ok {t t' : Tree α} {p : List α} {used : Nat}
    (h : t.withParameters o p = .ok (t', used)) :
    p.length = o.offset + t.tunableCount o ∧ t' = (t.assign o 0 (p.drop o.offset)).1 := by
  by_cases hp : p.length = o.offset + t.tunableCount o
  · rw [withParameters_eq o hp] at h
    cases h
    exact ⟨hp, rfl⟩
  · unfold withParameters at h
    rw [if_neg hp] at h
    cases h

/-- The nodes that are left out of a fit keep their numbers. -/
theorem withParameters_excluded {t t' : Tree α} {p : List α} {used : Nat}
    (h : t.withParameters o p = .ok (t', used)) {id : Nat} (hid : id ∈ o.excluded) :
    (t'.node? id).map symbol = (t.node? id).map symbol := by
  obtain ⟨-, rfl⟩ := withParameters_ok h
  refine symbol_assign t _ fun q hq hnode => ?_
  have ht := tunes_of_mem_slotsFrom hq
  rw [hnode, FitOptions.tunes, List.contains_iff_mem.2 hid] at ht
  cases ht

variable [Scalar α]

/-- A write leaves the excluded nodes of every tree alone. Where no leaf has children it takes each
parameter to the node and the place it came from, and changes no other node. -/
theorem withParameters_rewrites (t : Tree α) (o : FitOptions) {p : List α} {t' : Tree α}
    {used : Nat} (hw : t.withParameters o p = .ok (t', used)) :
    (∀ id ∈ o.excluded, (t'.node? id).map symbol = (t.node? id).map symbol) ∧
    (t.LeavesBare → ∀ (trace : Option Trace) (c : CompiledTree α), t.compile o trace = .ok c →
      (∀ k q, o.offset ≤ k → c.parameters[k]? = some q → ∃ v n n', p[k]? = some v ∧
        t.node? q.node = some n ∧ t'.node? q.node = some n' ∧ Rewrites o q v n n') ∧
      ∀ id, (∀ q ∈ c.parameters.drop o.offset, q.node ≠ id) →
        (t'.node? id).map symbol = (t.node? id).map symbol) := by
  refine ⟨fun id hid => withParameters_excluded hw hid, fun hb trace c hc => ?_⟩
  have hslots : c.parameters.drop o.offset = t.slots o := by
    rw [parameters_of_compile hb hc, List.drop_left' (length_scaling o)]
  obtain ⟨hp, rfl⟩ := withParameters_ok hw
  constructor
  · intro k q hk hq
    have hq' : (t.slots o)[k - o.offset]? = some q := by
      rw [← hslots, List.getElem?_drop, Nat.add_sub_cancel' hk, hq]
    have hlt : k < p.length := by
      have := (List.getElem?_eq_some_iff.1 hq').1
      rw [hp, tunableCount, tunable_eq_slots, List.length_map]
      omega
    have hv : (p.drop o.offset)[k - o.offset]? = some p[k] := by
      rw [List.getElem?_drop, Nat.add_sub_cancel' hk, List.getElem?_eq_getElem hlt]
    obtain ⟨j, n, n', hj, hn, hn', h⟩ := assign_rewrites t 0 (p.drop o.offset) hq' hv
    rw [Nat.zero_add] at hj
    subst hj
    exact ⟨p[k], n, n', List.getElem?_eq_getElem hlt, hn, hn', h⟩
  · intro id hid
    exact symbol_assign t _ (hslots ▸ hid)

theorem withParameters_rewrites_line : ∃ t', (lineTree (1 : Float) 1).withParameters
      { rescale := true } [7, 8, 5, 6] = .ok (t', 4) ∧
    ∃ n n', (lineTree 1 1).node? 2 = some n ∧ t'.node? 2 = some n' ∧
      Rewrites { rescale := true } ⟨2, .constant, 1⟩ (6 : Float) n n' := by
  have hc : (lineTree (1 : Float) 1).compile { rescale := true } none =
      .ok (lineCompiled 1 1) := by cbv
  have hb := lineTree_leavesBare (1 : Float) 1
  have hw := withParameters_eq { rescale := true } (t := lineTree (1 : Float) 1)
    (p := [7, 8, 5, 6]) rfl
  obtain ⟨v, n, n', hv, hn, hn', h⟩ :=
    ((withParameters_rewrites _ _ hw).2 hb none _ hc).1 3 ⟨2, .constant, 1⟩ (by decide) rfl
  cases hv
  exact ⟨_, hw, n, n', hn, hn', h⟩

end Tree

section Drift

/-- A sum of a constant, below which there is a constant, and of another constant. -/
def driftTree : Tree Float :=
  .node (.fold .add) [.node (.constant 1) [.node (.constant 2) []], .node (.constant 3) []]

/-- The second parameter is taken from the constant at position 3, which the compiler counts as
position 2 and does not leave out; a write puts it into the constant at position 2. -/
theorem driftTree_drifts :
    ((driftTree.compile { excluded := [3] } none).map fun c =>
      c.parameters.map fun q => (q.node, q.initial)) = .ok [(1, 1), (2, 3)] ∧
    (driftTree.node? 2).map (·.symbol.numbers) = some [2] ∧
    (driftTree.node? 3).map (·.symbol.numbers) = some [3] ∧
    ((driftTree.withParameters { excluded := [3] } [1, 4]).map fun r => r.1.numbers) =
      .ok [1, 4, 3] := by
  exact ⟨by decide +kernel, by decide +kernel, by decide +kernel, by decide +kernel⟩

end Drift

end SymbolicFit
