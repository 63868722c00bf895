import Mathlib
import SymbolicFit.Proofs.CompiledShapes

/-!
Trees that read no whole vector. Every node of such a tree is a scalar on every row, so recording
its shapes before it is compiled changes nothing.
-/

namespace SymbolicFit

variable {α β γ δ : Type}

namespace Shaped

theorem shape_broadcast_scalar {id : Nat} {a : Shaped β} {b : Shaped γ} {p : Shaped (β × γ)}
    (ha : a.shape = .scalar) (hb : b.shape = .scalar) (hp : a.broadcast id b = .ok p) :
    p.shape = .scalar := by
  cases a with
  | vector xs => cases ha
  | scalar x =>
    cases b with
    | vector ys => cases hb
    | scalar y =>
      cases hp
      rfl

theorem shape_zipWith_scalar {id : Nat} {f : β → γ → δ} {a : Shaped β} {b : Shaped γ}
    {c : Shaped δ} (ha : a.shape = .scalar) (hb : b.shape = .scalar)
    (hc : a.zipWith id f b = .ok c) : c.shape = .scalar := by
  obtain ⟨p, hp, rfl⟩ := map_eq_ok.1 hc
  rw [shape_map, shape_broadcast_scalar ha hb hp]

theorem shape_foldlM_scalar {id : Nat} {f : β → β → β} {bs : List (Shaped β)} {a c : Shaped β}
    (ha : a.shape = .scalar) (hbs : ∀ b ∈ bs, b.shape = .scalar)
    (hc : bs.foldlM (zipWith id f) a = .ok c) : c.shape = .scalar := by
  induction bs generalizing a with
  | nil =>
    cases hc
    exact ha
  | cons b bs ih =>
    obtain ⟨hb, hbs⟩ := List.forall_mem_cons.1 hbs
    obtain ⟨ab, hab, hc⟩ := bind_eq_ok.1 hc
    exact ih (shape_zipWith_scalar ha hb hab) hbs hc

end Shaped

namespace Tree

variable {d : Dataset α}

/-- No leaf reads a whole vector column. -/
def ReadsElements (d : Dataset α) (t : Tree α) : Prop :=
  ∀ n ∈ t.nodes, ∀ name w lag, n.symbol = .column name w lag none → d.hasType name .vector ≠ true

theorem readsElements_node {s : Symbol α} {cs : List (Tree α)} :
    (node s cs).ReadsElements d ↔
      (∀ name w lag, s = .column name w lag none → d.hasType name .vector ≠ true) ∧
        ∀ c ∈ cs, c.ReadsElements d :=
  forall_mem_nodes

theorem readsElements_of_readsWholeVectors {t : Tree α} (h : t.readsWholeVectors d = false) :
    t.ReadsElements d := by
  intro n hn name w lag hs ht
  have hany := List.any_eq_false.1 h n hn
  rw [hs] at hany
  exact hany ht

end Tree

variable [Scalar α] {d : Dataset α} {row : Nat}

/-- Operations turn scalars into scalars. -/
theorem Symbol.shape_combine_scalar {id : Nat} {s : Symbol α} {vs : List (Shaped α)} {v : Shaped α}
    (hvs : ∀ w ∈ vs, w.shape = .scalar) (hv : s.combine id vs = .ok v) : v.shape = .scalar := by
  unfold combine at hv
  split at hv
  case h_2 op a rest _ =>
    obtain ⟨ha, hrest⟩ := List.forall_mem_cons.1 hvs
    exact Shaped.shape_foldlM_scalar ha hrest hv
  case h_3 op a b => exact Shaped.shape_zipWith_scalar (hvs a (by simp)) (hvs b (by simp)) hv
  case h_8 =>
    cases hv
    rfl
  case h_10 c a b =>
    obtain ⟨ca, hca, hv⟩ := bind_eq_ok.1 hv
    obtain ⟨cab, hcab, hv⟩ := bind_eq_ok.1 hv
    cases hv
    have hshape := Shaped.shape_broadcast_scalar (hvs c (by simp)) (hvs a (by simp)) hca
    rw [Shaped.shape_map, Shaped.shape_broadcast_scalar hshape (hvs b (by simp)) hcab]
  case h_11 => cases hv
  case h_9 a =>
    cases hv
    exact hvs _ (by simp)
  all_goals
    cases hv
    rw [Shaped.shape_map]
    exact hvs _ (by simp)

namespace Tree

mutual

/-- A tree that reads no whole vector has a scalar at every node. -/
theorem evaluateAt_scalar : ∀ (t : Tree α) (id : Nat) {v : Shaped α} {shapes : List Shape},
    t.ReadsElements d → t.evaluateAt d row id = .ok (v, shapes) →
      v.shape = .scalar ∧ ∀ shape ∈ shapes, shape = .scalar
  | node s cs, id, v, shapes, ht, h => by
    obtain ⟨hs, hcs⟩ := readsElements_node.1 ht
    obtain ⟨hv, rfl⟩ | ⟨-, vs, shapes', hvs, hv, rfl⟩ := evaluateAt_ok.1 h
    · have hshape := Symbol.shape_of_leaf? hv hs
      exact ⟨hshape, List.forall_mem_singleton.2 hshape⟩
    · obtain ⟨hall, hshapes⟩ := evaluateAllAt_scalar cs (id + 1) hcs hvs
      have hshape := Symbol.shape_combine_scalar hall hv
      exact ⟨hshape, List.forall_mem_cons.2 ⟨hshape, hshapes⟩⟩

theorem evaluateAllAt_scalar : ∀ (ts : List (Tree α)) (id : Nat) {vs : List (Shaped α)}
    {shapes : List Shape}, (∀ t ∈ ts, t.ReadsElements d) →
      evaluateAllAt d row id ts = .ok (vs, shapes) →
        (∀ v ∈ vs, v.shape = .scalar) ∧ ∀ shape ∈ shapes, shape = .scalar
  | [], id, vs, shapes, _, h => by
    cases h
    exact ⟨nofun, nofun⟩
  | t :: ts, id, vs, shapes, hts, h => by
    obtain ⟨ht, hts⟩ := List.forall_mem_cons.1 hts
    obtain ⟨v, vs', shapes', shapes'', hv, hvs, rfl, rfl⟩ := evaluateAllAt_cons_ok.1 h
    obtain ⟨hshape, hshapes⟩ := evaluateAt_scalar t id ht hv
    obtain ⟨hall, hshapes'⟩ := evaluateAllAt_scalar ts (id + t.reach) hts hvs
    exact ⟨List.forall_mem_cons.2 ⟨hshape, hall⟩, List.forall_mem_append.2 ⟨hshapes, hshapes'⟩⟩

end

/-- The two traces give the same shape to every position. -/
def SameShapes (trace trace' : Option Trace) : Prop :=
  ∀ id, Trace.shapeOf trace id = Trace.shapeOf trace' id

variable {trace trace' : Option Trace} {o : FitOptions}

mutual

/-- Compilation depends on a trace only through the shapes it gives to positions. -/
theorem compileAt_congr (h : SameShapes trace trace') : ∀ (t : Tree α) (id : Nat),
    t.compileAt o trace id = t.compileAt o trace' id
  | node s cs, id => by
    cases hs : s.isLeaf
    · by_cases ha : s.accepts (Trace.shapeOf trace (id + 1)) cs.length = true
      · have ha' := ha
        rw [h] at ha'
        rcases exponent_cases s cs with ⟨he, base, exponent, rfl⟩ | he
        · rw [compileAt_exponent he, compileAt_exponent he, compileAt_congr h base]
        · rw [compileAt_other hs he ha, compileAt_other hs he ha', compileAllAt_congr h cs]
      · have ha' := ha
        rw [h] at ha'
        rw [compileAt_rejected hs ha, compileAt_rejected hs ha']
    · obtain ⟨x, hx⟩ := Symbol.compileLeaf?_of_isLeaf hs o (Trace.shapeOf trace id) id
      have hx' := hx
      rw [h] at hx'
      rw [compileAt_leaf hx, compileAt_leaf hx']

theorem compileAllAt_congr (h : SameShapes trace trace') : ∀ (ts : List (Tree α)) (id : Nat),
    compileAllAt o trace id ts = compileAllAt o trace' id ts
  | [], _ => rfl
  | t :: ts, id => by
    unfold compileAllAt
    rw [compileAt_congr h t, compileAllAt_congr h ts]

end

theorem compile_congr (h : SameShapes trace trace') (t : Tree α) :
    t.compile o trace = t.compile o trace' := by
  unfold compile compileOutput
  rw [compileAt_congr h t]

/-- A tree that reads no whole vector compiles alike with its recorded shapes, all of which are
scalar, and without them. -/
theorem compile_untraced (t : Tree α) (d : Dataset α) (rows : List Nat) (o : FitOptions)
    {trace : Trace} (hv : t.readsWholeVectors d = false) (h : Trace.record t d rows = .ok trace) :
    (∀ id shape, trace.shape? id = some shape → shape = .scalar) ∧
      t.compile o (some trace) = t.compile o none := by
  have hrows : rows ≠ [] := by
    rintro rfl
    cases h
  obtain ⟨row, hrow⟩ := List.exists_mem_of_ne_nil rows hrows
  obtain ⟨v, hv'⟩ := evaluateAt_of_record h hrow
  have hshapes := (evaluateAt_scalar t 0 (readsElements_of_readsWholeVectors hv) hv').2
  have hscalar : ∀ id shape, trace.shape? id = some shape → shape = .scalar :=
    fun id shape hid => hshapes shape (List.mem_of_getElem? hid)
  -- a position without a recorded shape counts as a scalar
  have hsame : SameShapes (some trace) none := by
    intro id
    change (trace.shape? id).getD .scalar = .scalar
    cases hid : trace.shape? id with
    | none => rfl
    | some shape => exact hscalar id shape hid
  exact ⟨hscalar, compile_congr hsame t⟩

end Tree

section Element

/-- The tree `v[1] * x`, where `v` is a vector. -/
def elementTree : Tree Float :=
  .node (.fold .mul) [.node (.column "v" 1 0 (some 1)) [], .node (.column "x" 1 0 none) []]

def elementData : Dataset Float where
  rows := some 2
  columns := [("v", .vectors #[[1, 2], [3, 4]]), ("x", .numbers #[5, 6])]

theorem compile_untraced_element :
    elementTree.compile {} (some ⟨[.scalar, .scalar, .scalar]⟩) = elementTree.compile {} none ∧
      (elementTree.compile {} none).isOk = true := by
  have hv : elementTree.readsWholeVectors elementData = false := by decide +kernel
  have ht : Trace.record elementTree elementData [1, 0] = .ok ⟨[.scalar, .scalar, .scalar]⟩ := by
    decide +kernel
  have hok : (elementTree.compile {} none).isOk = true := by decide +kernel
  exact ⟨(Tree.compile_untraced elementTree elementData [1, 0] {} hv ht).2, hok⟩

end Element

end SymbolicFit
