import Mathlib
import SymbolicFit.Tuning
import SymbolicFit.Proofs.NodeOrder
import SymbolicFit.Proofs.RowReads

/-!
What a successful evaluation says about the leaves of a tree: each of them can be read, and a trace
holds its shape at its position.
-/

namespace SymbolicFit

variable {α : Type} [Scalar α] {d : Dataset α} {row : Nat}

theorem forM_ok {β : Type} {f : β → Except Failure Unit} {bs : List β} {u : Unit}
    (h : bs.forM f = .ok u) : ∀ b ∈ bs, f b = .ok () := by
  induction bs with
  | nil => exact nofun
  | cons b bs ih =>
    obtain ⟨_, hb, h⟩ := bind_eq_ok.1 h
    exact List.forall_mem_cons.2 ⟨hb, ih h⟩

theorem eq_of_findIdx?_eq_none {β : Type} [DecidableEq β] {xs ys : List β}
    (hl : xs.length = ys.length) (h : ((xs.zip ys).findIdx? fun p => p.1 ≠ p.2) = none) :
    xs = ys := by
  rw [List.findIdx?_eq_none_iff] at h
  rw [← List.forall₂_eq_eq_eq]
  exact List.forall₂_iff_zip.2 ⟨hl, fun {a b} hab => by simpa using h (a, b) hab⟩

namespace Symbol

theorem isLeaf_of_leaf? {s : Symbol α} {id : Nat} {v : Shaped α}
    (h : s.leaf? d row id = some (.ok v)) : s.isLeaf = true := by
  cases s <;> first | rfl | cases h

theorem isLeaf_of_leaf?_eq_none {s : Symbol α} {id : Nat} (h : s.leaf? d row id = none) :
    s.isLeaf = false := by
  cases s <;> first | rfl | cases h

/-- Only a leaf that reads whole vectors is a vector. -/
theorem shape_of_leaf? {s : Symbol α} {id : Nat} {v : Shaped α}
    (h : s.leaf? d row id = some (.ok v))
    (hs : ∀ name w lag, s = column name w lag none → d.hasType name .vector ≠ true) :
    v.shape = .scalar := by
  cases s with
  | constant | fixed =>
    cases h
    rfl
  | column name w lag index =>
    obtain ⟨raw, hraw, -, hv⟩ := readColumn_ok (Option.some.inj h)
    rw [← hraw]
    cases raw with
    | scalar z => rfl
    | vector zs =>
      obtain ⟨rfl, ht, -⟩ := hv
      exact absurd ht (hs name w lag rfl)
  | indicator | factor =>
    obtain ⟨label, -, h⟩ := bind_eq_ok.1 (Option.some.inj h)
    cases h
    rfl
  | _ => cases h

end Symbol

namespace Tree

theorem evaluateAt_ok {id : Nat} {s : Symbol α} {cs : List (Tree α)} {v : Shaped α}
    {shapes : List Shape} :
    (node s cs).evaluateAt d row id = .ok (v, shapes) ↔
      (s.leaf? d row id = some (.ok v) ∧ shapes = [v.shape]) ∨
      (s.leaf? d row id = none ∧ ∃ vs shapes', evaluateAllAt d row (id + 1) cs = .ok (vs, shapes') ∧
        s.combine id vs = .ok v ∧ shapes = v.shape :: shapes') := by
  unfold evaluateAt
  rcases h : s.leaf? d row id with _ | value
  · simp only [bind_eq_ok]
    constructor
    · rintro ⟨⟨vs, shapes'⟩, hvs, w, hw, hp⟩
      cases hp
      exact Or.inr ⟨trivial, vs, shapes', hvs, hw, rfl⟩
    · rintro (⟨hs, -⟩ | ⟨-, vs, shapes', hvs, hw, rfl⟩)
      · cases hs
      · exact ⟨(vs, shapes'), hvs, v, hw, rfl⟩
  · simp only [bind_eq_ok]
    constructor
    · rintro ⟨w, rfl, hp⟩
      cases hp
      exact Or.inl ⟨rfl, rfl⟩
    · rintro (⟨hv, rfl⟩ | ⟨hn, -⟩)
      · exact ⟨v, Option.some.inj hv, rfl⟩
      · cases hn

theorem evaluateAllAt_cons_ok {id : Nat} {t : Tree α} {ts : List (Tree α)}
    {vs : List (Shaped α)} {shapes : List Shape} :
    evaluateAllAt d row id (t :: ts) = .ok (vs, shapes) ↔ ∃ v vs' shapes' shapes'',
      t.evaluateAt d row id = .ok (v, shapes') ∧
      evaluateAllAt d row (id + t.reach) ts = .ok (vs', shapes'') ∧
      vs = v :: vs' ∧ shapes = shapes' ++ shapes'' := by
  rw [evaluateAllAt]
  simp only [bind_eq_ok]
  constructor
  · rintro ⟨⟨v, shapes'⟩, hv, ⟨vs', shapes''⟩, hvs, hp⟩
    cases hp
    exact ⟨v, vs', shapes', shapes'', hv, hvs, rfl, rfl⟩
  · rintro ⟨v, vs', shapes', shapes'', hv, hvs, rfl, rfl⟩
    exact ⟨(v, shapes'), hv, (vs', shapes''), hvs, rfl⟩

theorem valueAt_eq_ok {t : Tree α} {x : α} : t.valueAt d row = .ok x ↔
    ∃ shapes, t.evaluateAt d row 0 = .ok (.scalar x, shapes) := by
  constructor
  · intro h
    obtain ⟨⟨v, shapes⟩, hv, h⟩ := bind_eq_ok.1 h
    cases v with
    | scalar y =>
      cases h
      exact ⟨shapes, hv⟩
    | vector ys => cases h
  · rintro ⟨shapes, h⟩
    rw [valueAt, h]
    rfl

/-- The node has a value of this shape at its position. -/
def HasShape (d : Dataset α) (row : Nat) (p : Tree α × Nat) (shape : Shape) : Prop :=
  ∃ v shapes, p.1.evaluateAt d row p.2 = .ok (v, shapes) ∧ v.shape = shape

mutual

/-- Evaluation lists the shapes of the nodes it reaches. -/
theorem evaluateAt_reached : ∀ (t : Tree α) (id : Nat) {v : Shaped α} {shapes : List Shape},
    t.evaluateAt d row id = .ok (v, shapes) →
      List.Forall₂ (HasShape d row) (t.reached.zipIdx id) shapes
  | node s cs, id, v, shapes, h => by
    have hroot : HasShape d row (node s cs, id) v.shape := ⟨v, shapes, h, rfl⟩
    rw [reached, List.zipIdx_cons]
    obtain ⟨hv, rfl⟩ | ⟨hn, vs, shapes', hvs, -, rfl⟩ := evaluateAt_ok.1 h
    · rw [if_pos (Symbol.isLeaf_of_leaf? hv)]
      exact .cons hroot .nil
    · rw [if_neg (by simp [Symbol.isLeaf_of_leaf?_eq_none hn])]
      exact .cons hroot (evaluateAllAt_reached cs (id + 1) hvs)

theorem evaluateAllAt_reached : ∀ (ts : List (Tree α)) (id : Nat) {vs : List (Shaped α)}
    {shapes : List Shape}, evaluateAllAt d row id ts = .ok (vs, shapes) →
      List.Forall₂ (HasShape d row) ((reachedAmong ts).zipIdx id) shapes
  | [], id, vs, shapes, h => by
    rw [evaluateAllAt] at h
    cases h
    exact .nil
  | t :: ts, id, vs, shapes, h => by
    obtain ⟨v, vs', shapes', shapes'', hv, hvs, rfl, rfl⟩ := evaluateAllAt_cons_ok.1 h
    rw [reachedAmong, List.zipIdx_append, length_reached]
    exact List.rel_append (evaluateAt_reached t id hv) (evaluateAllAt_reached ts _ hvs)

end

theorem length_shapes {t : Tree α} {id : Nat} {v : Shaped α} {shapes : List Shape}
    (h : t.evaluateAt d row id = .ok (v, shapes)) : shapes.length = t.reach := by
  rw [← (evaluateAt_reached t id h).length_eq, List.length_zipIdx, length_reached]

/-- On each of the rows, every node that is reached has the shape that the trace holds for it. -/
def Traced (d : Dataset α) (rows : List Nat) (trace : Option Trace) (id : Nat)
    (ts : List (Tree α)) : Prop :=
  ∀ p ∈ (reachedAmong ts).zipIdx id, ∀ row ∈ rows, HasShape d row p (Trace.shapeOf trace p.2)

theorem traced_of_evaluateAt {t : Tree α} {v : Shaped α} {shapes : List Shape}
    (h : t.evaluateAt d row 0 = .ok (v, shapes)) : Traced d [row] (some ⟨shapes⟩) 0 [t] := by
  intro p hp row' hrow
  obtain rfl := List.mem_singleton.1 hrow
  rw [reachedAmong, reachedAmong, List.append_nil] at hp
  have hs := evaluateAt_reached t 0 h
  obtain ⟨hi, hp'⟩ := List.getElem?_eq_some_iff.1 (List.mem_zipIdx_iff_getElem?.1 hp)
  have hi' : p.2 < shapes.length := by rwa [← hs.length_eq, List.length_zipIdx]
  have hg := hs.get (by rwa [List.length_zipIdx]) hi'
  simp only [List.get_eq_getElem, List.getElem_zipIdx, Nat.zero_add] at hg
  have hshape : Trace.shapeOf (some ⟨shapes⟩) p.2 = shapes[p.2] := by
    simp [Trace.shapeOf, Trace.shape?, hi']
  have he : (t.reached[p.2], p.2) = p := Prod.ext hp' rfl
  rw [he] at hg
  rwa [hshape]

/-- A recorded trace holds the shapes of the nodes on each of the rows. -/
theorem evaluateAt_of_record {t : Tree α} {rows : List Nat} {trace : Trace}
    (h : Trace.record t d rows = .ok trace) (hr : row ∈ rows) :
    ∃ v, t.evaluateAt d row 0 = .ok (v, trace.shapes) := by
  cases rows with
  | nil => cases h
  | cons first rest =>
    rw [Trace.record] at h
    obtain ⟨⟨v, shapes⟩, hv, h⟩ := bind_eq_ok.1 h
    obtain ⟨u, hrest, h⟩ := bind_eq_ok.1 h
    cases h
    obtain rfl | hr := List.mem_cons.1 hr
    · exact ⟨v, hv⟩
    · have hrow := forM_ok hrest row hr
      obtain ⟨⟨w, shapes'⟩, hw, h⟩ := bind_eq_ok.1 hrow
      have hlen : shapes.length = shapes'.length := by rw [length_shapes hv, length_shapes hw]
      dsimp only at h
      cases hi : (shapes.zip shapes').findIdx? fun p => p.1 ≠ p.2 with
      | some i => rw [hi] at h; cases h
      | none => exact ⟨w, eq_of_findIdx?_eq_none hlen hi ▸ hw⟩

theorem traced_of_record {t : Tree α} {rows : List Nat} {trace : Trace}
    (h : Trace.record t d rows = .ok trace) : Traced d rows (some trace) 0 [t] := by
  intro p hp row hr
  obtain ⟨v, hv⟩ := evaluateAt_of_record h hr
  exact traced_of_evaluateAt hv p hp row (List.mem_singleton_self row)

/-- The node is not a leaf, or it can be read and its value has this shape. -/
def LeafShape (d : Dataset α) (row : Nat) (p : Tree α × Nat) (shape : Shape) : Prop :=
  ∀ value, p.1.symbol.leaf? d row p.2 = some value → ∃ v, value = .ok v ∧ v.shape = shape

theorem HasShape.leafShape {p : Tree α × Nat} {shape : Shape} (h : HasShape d row p shape) :
    LeafShape d row p shape := by
  obtain ⟨⟨s, cs⟩, id⟩ := p
  obtain ⟨v, shapes, hv, rfl⟩ := h
  intro value hvalue
  obtain ⟨hleaf, -⟩ | ⟨hn, -⟩ := evaluateAt_ok.1 hv
  · exact ⟨v, Option.some.inj (hvalue.symm.trans hleaf), rfl⟩
  · exact absurd (hvalue.symm.trans hn) nofun

/-- Every leaf can be read and has the shape that the trace holds for it. -/
def LeavesRead (d : Dataset α) (row : Nat) (trace : Option Trace) (id : Nat) (ts : List (Tree α)) :
    Prop :=
  ∀ p ∈ (visit ts).zipIdx id, LeafShape d row p (Trace.shapeOf trace p.2)

theorem leavesRead_node {trace : Option Trace} {id : Nat} {s : Symbol α} {cs : List (Tree α)} :
    LeavesRead d row trace id [node s cs] ↔
      LeafShape d row (node s cs, id) (Trace.shapeOf trace id) ∧
        LeavesRead d row trace (id + 1) cs := by
  simp [LeavesRead, visit_node_cons, List.zipIdx_cons]

theorem leavesRead_cons {trace : Option Trace} {id : Nat} {t : Tree α} {ts : List (Tree α)} :
    LeavesRead d row trace id (t :: ts) ↔
      LeavesRead d row trace id [t] ∧ LeavesRead d row trace (id + t.size) ts := by
  simp [LeavesRead, visit_cons, List.zipIdx_append, length_nodes, or_imp, forall_and]

theorem leavesRead_of_traced {t : Tree α} {rows : List Nat} {trace : Option Trace}
    (hb : t.LeavesBare) (h : Traced d rows trace 0 [t]) (hr : row ∈ rows) :
    LeavesRead d row trace 0 [t] := by
  intro p hp
  rw [← reachedAmong_eq_visit [t] (List.forall_mem_singleton.2 hb)] at hp
  exact (h p hp row hr).leafShape

/-- The leaves can be read on every row that the tree is evaluated on, with the shapes of the trace
that is recorded for it. -/
theorem leavesRead_of_neededTrace {t : Tree α} {rows : List Nat} {values : List α}
    {trace : Option Trace} (hb : t.LeavesBare) (hv : t.values d rows = .ok values)
    (ht : t.neededTrace d rows = .ok trace) (hr : row ∈ rows) :
    LeavesRead d row trace 0 [t] := by
  unfold neededTrace at ht
  split_ifs at ht with hw
  · cases hrec : Trace.record t d rows with
    | error e => rw [hrec] at ht; cases ht
    | ok trace' =>
      rw [hrec] at ht
      cases ht
      exact leavesRead_of_traced hb (traced_of_record hrec) hr
  · -- without a trace every shape is taken to be a scalar, and no leaf reads a vector
    cases ht
    obtain ⟨i, hi, rfl⟩ := List.getElem_of_mem hr
    have hvalues := forall₂_of_mapM hv
    obtain ⟨⟨v, shapes⟩, hv, -⟩ :=
      bind_eq_ok.1 (hvalues.get hi (hvalues.length_eq ▸ hi))
    intro p hp value hvalue
    obtain ⟨v, rfl, -⟩ := leavesRead_of_traced hb (traced_of_evaluateAt hv)
      (List.mem_singleton_self _) p hp value hvalue
    refine ⟨v, rfl, Symbol.shape_of_leaf? hvalue fun name w lag hs => ?_⟩
    intro hvec
    refine hw (List.any_eq_true.2 ⟨p.1, List.fst_mem_of_mem_zipIdx hp, ?_⟩)
    rw [hs]
    exact hvec

end Tree

end SymbolicFit
