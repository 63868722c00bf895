import SymbolicFit.Proofs.RecordingWalks
import SymbolicFit.Proofs.ShapedRelation

/-!
The trace of a tree over a set of rows. It covers every node, with the shape that the node has on
each of the rows, and where there is no such trace the failure names the first row that spoils it
and, on that row, the first node.
-/

namespace SymbolicFit

variable {α β γ : Type}

section Traversal

theorem exists_first_cons {P Q : β → Prop} {b : β} {bs : List β} :
    (∃ before c after, b :: bs = before ++ c :: after ∧ (∀ a ∈ before, P a) ∧ Q c) ↔
      Q b ∨ P b ∧ ∃ before c after, bs = before ++ c :: after ∧ (∀ a ∈ before, P a) ∧ Q c := by
  constructor
  · rintro ⟨_ | ⟨a, before⟩, c, after, heq, hbefore, hc⟩
    · cases heq
      exact .inl hc
    · cases heq
      have hcons := List.forall_mem_cons.1 hbefore
      exact .inr ⟨hcons.1, before, c, after, rfl, hcons.2, hc⟩
  · rintro (hb | ⟨hb, before, c, after, rfl, hbefore, hc⟩)
    · exact ⟨[], b, bs, rfl, nofun, hb⟩
    · exact ⟨b :: before, c, after, rfl, List.forall_mem_cons.2 ⟨hb, hbefore⟩, hc⟩

variable {ε : Type} {f : β → Except ε Unit} {e : ε}

/-- The first failure of a traversal comes after elements that are passed. -/
theorem forM_eq_error {bs : List β} : bs.forM f = .error e ↔
    ∃ before b after, bs = before ++ b :: after ∧ (∀ c ∈ before, f c = .ok ()) ∧
      f b = .error e := by
  induction bs with
  | nil => simp [List.forM, pure, Except.pure]
  | cons b bs ih =>
    have hstep : (b :: bs).forM f = f b >>= fun _ => bs.forM f := rfl
    rw [exists_first_cons, ← ih, hstep]
    cases f b <;> simp [bind, Except.bind]

end Traversal

section Positions

namespace Shaped

variable {id : Nat} (id' : Nat)

theorem broadcast_position {a : Shaped β} {b : Shaped γ} {p : Shaped (β × γ)}
    (h : a.broadcast id b = .ok p) : a.broadcast id' b = .ok p := by
  have hlength : ∀ {l r n}, commonLength id l r = .ok n → commonLength id' l r = .ok n := by
    intro l r n hn
    unfold commonLength at hn ⊢
    split_ifs at hn ⊢ <;> exact hn
  by_cases hv : a.shape.isVector = true ∨ b.shape.isVector = true
  · rw [broadcast_of_vector hv] at h ⊢
    obtain ⟨n, hn, rfl⟩ := map_eq_ok.1 h
    rw [hlength hn]
    rfl
  · cases a with
    | vector xs => exact absurd (Or.inl rfl) hv
    | scalar x =>
      cases b with
      | vector ys => exact absurd (Or.inr rfl) hv
      | scalar y => exact h

theorem zipWith_position {δ : Type} {f : β → γ → δ} {a : Shaped β} {b : Shaped γ} {c : Shaped δ}
    (h : zipWith id f a b = .ok c) : zipWith id' f a b = .ok c := by
  obtain ⟨p, hp, rfl⟩ := map_eq_ok.1 h
  rw [zipWith, broadcast_position id' hp]
  rfl

theorem foldlM_zipWith_position {f : β → β → β} {bs : List (Shaped β)} {a c : Shaped β}
    (h : bs.foldlM (zipWith id f) a = .ok c) : bs.foldlM (zipWith id' f) a = .ok c := by
  induction bs generalizing a with
  | nil => exact h
  | cons b bs ih =>
    obtain ⟨ab, hab, h⟩ := bind_eq_ok.1 h
    exact bind_eq_ok.2 ⟨ab, zipWith_position id' hab, ih h⟩

end Shaped

variable [Scalar α] {d : Dataset α} {row id : Nat} (id' : Nat)

theorem Symbol.leaf?_position {s : Symbol α} {v : Shaped α}
    (h : s.leaf? d row id = some (.ok v)) : s.leaf? d row id' = some (.ok v) := by
  cases s <;> first | exact h | cases h

theorem Symbol.leaf?_eq_none_position {s : Symbol α} (h : s.leaf? d row id = none) :
    s.leaf? d row id' = none := by
  cases s <;> first | rfl | cases h

theorem Symbol.combine_position {s : Symbol α} {vs : List (Shaped α)} {v : Shaped α}
    (h : s.combine id vs = .ok v) : s.combine id' vs = .ok v := by
  unfold combine at h
  split at h
  case h_2 op a rest hrest =>
    cases rest with
    | nil => exact (hrest rfl).elim
    | cons b rest => exact Shaped.foldlM_zipWith_position id' h
  case h_3 op a b => exact Shaped.zipWith_position id' h
  case h_10 c a b =>
    obtain ⟨ca, hca, h⟩ := bind_eq_ok.1 h
    obtain ⟨cab, hcab, h⟩ := bind_eq_ok.1 h
    exact bind_eq_ok.2 ⟨ca, Shaped.broadcast_position id' hca,
      bind_eq_ok.2 ⟨cab, Shaped.broadcast_position id' hcab, h⟩⟩
  case h_11 => cases h
  all_goals exact h

namespace Tree

mutual

/-- Positions only name nodes in failures. -/
theorem evaluateAt_position : ∀ (t : Tree α) {id : Nat} (id' : Nat) {r : Shaped α × List Shape},
    t.evaluateAt d row id = .ok r → t.evaluateAt d row id' = .ok r
  | node s cs, id, id', (v, shapes), h => by
    obtain ⟨hv, rfl⟩ | ⟨hn, vs, shapes', hvs, hv, rfl⟩ := evaluateAt_ok.1 h
    · exact evaluateAt_ok.2 (.inl ⟨Symbol.leaf?_position id' hv, rfl⟩)
    · exact evaluateAt_ok.2 (.inr ⟨Symbol.leaf?_eq_none_position id' hn, vs, shapes',
        evaluateAllAt_position cs (id' + 1) hvs, Symbol.combine_position id' hv, rfl⟩)

theorem evaluateAllAt_position : ∀ (ts : List (Tree α)) {id : Nat} (id' : Nat)
    {r : List (Shaped α) × List Shape},
    evaluateAllAt d row id ts = .ok r → evaluateAllAt d row id' ts = .ok r
  | [], _, _, _, h => h
  | t :: ts, id, id', (vs, shapes), h => by
    obtain ⟨v, vs', shapes', shapes'', hv, hvs, rfl, rfl⟩ := evaluateAllAt_cons_ok.1 h
    exact evaluateAllAt_cons_ok.2 ⟨v, vs', shapes', shapes'', evaluateAt_position t id' hv,
      evaluateAllAt_position ts (id' + t.reach) hvs, rfl, rfl⟩

end

/-- The shape of the value of a tree on a row, if it has one. -/
def shapeOn? (t : Tree α) (d : Dataset α) (row : Nat) : Option Shape :=
  (t.evaluateAt d row 0).toOption.map (·.1.shape)

theorem HasShape.shapeOn? {p : Tree α × Nat} {shape : Shape} (h : HasShape d row p shape) :
    p.1.shapeOn? d row = some shape := by
  obtain ⟨v, shapes, hv, rfl⟩ := h
  rw [Tree.shapeOn?, evaluateAt_position p.1 0 hv]
  rfl

/-- Evaluation lists the shapes of all nodes in node order. -/
theorem shapes_eq {t : Tree α} (hb : t.LeavesBare) {v : Shaped α} {shapes : List Shape}
    (h : t.evaluateAt d row 0 = .ok (v, shapes)) :
    t.nodes.map (·.shapeOn? d row) = shapes.map some := by
  have hshapes := (evaluateAt_reached t 0 h).imp fun _ _ => HasShape.shapeOn?
  rw [reached_eq_nodes t hb] at hshapes
  have hnodes : t.nodes = (t.nodes.zipIdx 0).map Prod.fst := (List.zipIdx_map_fst 0 t.nodes).symm
  rw [hnodes, List.map_map, ← List.forall₂_eq_eq_eq, List.forall₂_map_left_iff,
    List.forall₂_map_right_iff]
  exact hshapes

end Tree

end Positions

section Outcomes

variable [Scalar α] {d : Dataset α} {t : Tree α} {first row : Nat}

namespace Tree

/-- The node at this position has another shape on the row than on the first one. -/
def Differs (t : Tree α) (d : Dataset α) (first row id : Nat) : Prop :=
  ∃ n, t.node? id = some n ∧ n.shapeOn? d row ≠ n.shapeOn? d first

/-- The tree can be evaluated on the row and has the shapes of the first row there. -/
structure Agrees (t : Tree α) (d : Dataset α) (first row : Nat) : Prop where
  evaluates : ∃ r, t.evaluateAt d row 0 = .ok r
  alike : ∀ id, ¬t.Differs d first row id

/-- Why a row spoils the trace: the tree cannot be evaluated on it, or a node has another shape than
on the first row. The first such node is named. -/
inductive Spoils (t : Tree α) (d : Dataset α) (first row : Nat) : Failure → Prop
  | evaluation {e : Failure} (h : t.evaluateAt d row 0 = .error e) : Spoils t d first row e
  | shape {r : Shaped α × List Shape} {id : Nat} (hr : t.evaluateAt d row 0 = .ok r)
      (h : IsLeast {id | t.Differs d first row id} id) :
      Spoils t d first row (.inconsistentVectorLength id)

theorem shapeOn?_of_node? (hb : t.LeavesBare) {v : Shaped α} {shapes : List Shape}
    (h : t.evaluateAt d row 0 = .ok (v, shapes)) {id : Nat} {n : Tree α}
    (hn : t.node? id = some n) : n.shapeOn? d row = shapes[id]? := by
  have heq := congrArg (·[id]?) (shapes_eq hb h)
  have hnode : t.nodes[id]? = some n := hn
  simp only [List.getElem?_map, hnode, Option.map_some] at heq
  cases hs : shapes[id]? with
  | none =>
    rw [hs] at heq
    cases heq
  | some shape =>
    rw [hs] at heq
    exact Option.some.inj heq

variable (hb : t.LeavesBare) {v v' : Shaped α} {shapes shapes' : List Shape}
  (hfirst : t.evaluateAt d first 0 = .ok (v, shapes))
  (hrow : t.evaluateAt d row 0 = .ok (v', shapes'))
include hb hfirst hrow

theorem length_zip_shapes : (shapes.zip shapes').length = t.nodes.length := by
  rw [List.length_zip, length_shapes hfirst, length_shapes hrow, Nat.min_self, length_nodes,
    reach_eq_size t hb]

theorem differs_iff (id : Nat) : t.Differs d first row id ↔
    ∃ h : id < (shapes.zip shapes').length,
      (shapes.zip shapes')[id].1 ≠ (shapes.zip shapes')[id].2 := by
  have hlength := length_zip_shapes hb hfirst hrow
  constructor
  · rintro ⟨n, hn, hne⟩
    obtain ⟨hid, -⟩ := List.getElem?_eq_some_iff.1 hn
    rw [← hlength] at hid
    rw [shapeOn?_of_node? hb hfirst hn, shapeOn?_of_node? hb hrow hn] at hne
    rw [List.length_zip] at hid
    refine ⟨by rwa [List.length_zip], fun heq => hne ?_⟩
    rw [List.getElem_zip] at heq
    rw [List.getElem?_eq_getElem (by omega), List.getElem?_eq_getElem (by omega)]
    exact congrArg some heq.symm
  · rintro ⟨hid, hne⟩
    have hnode := List.getElem?_eq_getElem (hlength ▸ hid : id < t.nodes.length)
    refine ⟨_, hnode, fun heq => hne ?_⟩
    rw [shapeOn?_of_node? hb hfirst hnode, shapeOn?_of_node? hb hrow hnode] at heq
    rw [List.length_zip] at hid
    rw [List.getElem?_eq_getElem (by omega), List.getElem?_eq_getElem (by omega)] at heq
    rw [List.getElem_zip]
    exact (Option.some.inj heq).symm

/-- The search finds the first node whose shapes differ. -/
theorem findIdx?_shapes (id : Nat) :
    ((shapes.zip shapes').findIdx? fun p => p.1 ≠ p.2) = some id ↔
      IsLeast {id | t.Differs d first row id} id := by
  have hdiffers := differs_iff hb hfirst hrow
  rw [List.findIdx?_eq_some_iff_getElem]
  constructor
  · rintro ⟨hid, hne, hbefore⟩
    refine ⟨(hdiffers id).2 ⟨hid, of_decide_eq_true hne⟩, fun id' hid' => ?_⟩
    obtain ⟨hlt, hne'⟩ := (hdiffers id').1 hid'
    exact Nat.le_of_not_lt fun h => hbefore id' h (decide_eq_true hne')
  · rintro ⟨hid, hleast⟩
    obtain ⟨hlt, hne⟩ := (hdiffers id).1 hid
    refine ⟨hlt, decide_eq_true hne, fun id' h hne' => ?_⟩
    exact absurd (hleast ((hdiffers id').2 ⟨h.trans hlt, of_decide_eq_true hne'⟩)) (by omega)

theorem findIdx?_shapes_eq_none :
    ((shapes.zip shapes').findIdx? fun p => p.1 ≠ p.2) = none ↔
      ∀ id, ¬t.Differs d first row id := by
  have hdiffers := differs_iff hb hfirst hrow
  rw [List.findIdx?_eq_none_iff, List.forall_mem_iff_forall_getElem]
  simp only [hdiffers]
  simp

end Tree

namespace Trace

/-- Compares the shapes on a row with those on the first one. -/
def compare (t : Tree α) (d : Dataset α) (shapes : List Shape) (row : Nat) :
    Except Failure Unit := do
  let (_, shapes') ← t.evaluateAt d row 0
  match (shapes.zip shapes').findIdx? fun p => p.1 ≠ p.2 with
  | some id => .error (.inconsistentVectorLength id)
  | none => .ok ()

theorem record_cons (t : Tree α) (d : Dataset α) (first : Nat) (rest : List Nat) :
    record t d (first :: rest) = (do
      let (_, shapes) ← t.evaluateAt d first 0
      rest.forM (compare t d shapes)
      return ⟨shapes⟩) := rfl

variable (hb : t.LeavesBare) {v : Shaped α} {shapes : List Shape}
  (hfirst : t.evaluateAt d first 0 = .ok (v, shapes))
include hb hfirst

theorem compare_ok_iff : compare t d shapes row = .ok () ↔ t.Agrees d first row := by
  unfold compare
  cases hrow : t.evaluateAt d row 0 with
  | error e =>
    refine ⟨nofun, fun h => ?_⟩
    obtain ⟨r, hr⟩ := h.evaluates
    exact absurd (hrow.symm.trans hr) nofun
  | ok r =>
    have hagrees : t.Agrees d first row ↔ ∀ id, ¬t.Differs d first row id :=
      ⟨fun h => h.alike, fun h => ⟨⟨r, hrow⟩, h⟩⟩
    rw [hagrees, ← Tree.findIdx?_shapes_eq_none hb hfirst hrow]
    dsimp only [bind, Except.bind]
    split
    · rename_i id hid
      rw [hid]
      exact ⟨nofun, nofun⟩
    · rename_i hnone
      exact ⟨fun _ => hnone, fun _ => rfl⟩

theorem compare_error_iff {e : Failure} :
    compare t d shapes row = .error e ↔ t.Spoils d first row e := by
  unfold compare
  cases hrow : t.evaluateAt d row 0 with
  | error e' =>
    constructor
    · intro h
      cases h
      exact .evaluation hrow
    · rintro (h | ⟨hr, -⟩)
      · cases hrow.symm.trans h
        rfl
      · exact absurd (hrow.symm.trans hr) nofun
  | ok r =>
    have hleast := Tree.findIdx?_shapes hb hfirst hrow
    dsimp only [bind, Except.bind]
    constructor
    · intro h
      split at h
      · rename_i id hid
        cases h
        exact .shape hrow ((hleast id).1 hid)
      · cases h
    · rintro (h | ⟨hr, h⟩)
      · exact absurd (hrow.symm.trans h) nofun
      · rw [(hleast _).2 h]

omit hfirst in
theorem record_error_iff {rest : List Nat} {e : Failure} :
    record t d (first :: rest) = .error e ↔ ∃ before row after,
      first :: rest = before ++ row :: after ∧ (∀ r ∈ before, t.Agrees d first r) ∧
        t.Spoils d first row e := by
  rw [record_cons, exists_first_cons]
  rcases hfirst : t.evaluateAt d first 0 with e' | ⟨v, shapes⟩
  · have hagrees : ¬t.Agrees d first first := by
      rintro ⟨⟨r, hr⟩, -⟩
      exact absurd (hfirst.symm.trans hr) nofun
    have hspoils : t.Spoils d first first e ↔ e' = e := by
      constructor
      · rintro (h | ⟨hr, -⟩)
        · exact Except.error.inj (hfirst.symm.trans h)
        · exact absurd (hfirst.symm.trans hr) nofun
      · rintro rfl
        exact .evaluation hfirst
    simp [hagrees, hspoils, bind, Except.bind]
  · have hagrees : t.Agrees d first first :=
      ⟨⟨_, hfirst⟩, fun id ⟨n, hn, hne⟩ => hne rfl⟩
    have hspoils : ¬t.Spoils d first first e := by
      rintro (h | ⟨-, h⟩)
      · exact absurd (hfirst.symm.trans h) nofun
      · exact hagrees.alike _ h.1
    have hforM : (do
        let (_, shapes) ← .ok (v, shapes)
        rest.forM (compare t d shapes)
        return ⟨shapes⟩ : Except Failure Trace) = .error e ↔
          rest.forM (compare t d shapes) = .error e := by
      change (rest.forM (compare t d shapes) >>= _) = _ ↔ _
      cases rest.forM (compare t d shapes) <;> simp [bind, Except.bind, pure, Except.pure]
    rw [hforM, forM_eq_error, or_iff_right hspoils, and_iff_right hagrees]
    simp only [compare_ok_iff hb hfirst, compare_error_iff hb hfirst]

omit hb hfirst

/-- The trace has the shape of each node on each of the rows, in the place where a walk on the row
writes it. -/
structure Covers (trace : Trace) (t : Tree α) (d : Dataset α) (rows : List Nat) : Prop where
  length : trace.length = t.size
  shape : ∀ id n, t.node? id = some n → ∃ shape, trace.shape? id = some shape ∧
    ∀ row ∈ rows, n.shapeOn? d row = some shape
  written : ∀ row ∈ rows, ∃ v,
    t.walk d row ⟨0, []⟩ = some (.ok (v, ⟨t.size, trace.shapes⟩))

theorem covers_of_record {rows : List Nat} {trace : Trace} (hb : t.LeavesBare) (hr : rows ≠ [])
    (h : record t d rows = .ok trace) : trace.Covers t d rows := by
  obtain ⟨row₀, hrow₀⟩ := List.exists_mem_of_ne_nil rows hr
  obtain ⟨v₀, hv₀⟩ := Tree.evaluateAt_of_record h hrow₀
  have hlength : trace.shapes.length = t.size := by
    rw [Tree.length_shapes hv₀, Tree.reach_eq_size t hb]
  refine ⟨hlength, fun id n hn => ?_, fun row hrow => ?_⟩
  · obtain ⟨hid, -⟩ := List.getElem?_eq_some_iff.1 hn
    rw [Tree.length_nodes, ← hlength] at hid
    refine ⟨trace.shapes[id], List.getElem?_eq_getElem hid, fun row hrow => ?_⟩
    obtain ⟨v, hv⟩ := Tree.evaluateAt_of_record h hrow
    rw [Tree.shapeOn?_of_node? hb hv hn, List.getElem?_eq_getElem hid]
  · obtain ⟨v, hv⟩ := Tree.evaluateAt_of_record h hrow
    have hwalk := Tree.walk_apply d row t []
    rw [List.length_nil, hv, Tree.reach_eq_size t hb, Nat.zero_add] at hwalk
    exact ⟨v, hwalk⟩

/-- A trace is recorded exactly if the tree can be evaluated on every row and no node has different
shapes on two of them, and then it covers the tree. Otherwise the first row that fails, or on which
a shape differs from that on the first row, decides about the failure: it is the failure on that
row, or it names the first node with another shape. -/
theorem record_covers (t : Tree α) (d : Dataset α) (rows : List Nat) (hb : t.LeavesBare)
    (hr : rows ≠ []) :
    ((∃ trace, record t d rows = .ok trace) ↔
      (∀ row ∈ rows, ∃ r, t.evaluateAt d row 0 = .ok r) ∧
      ∀ id n, t.node? id = some n → ∀ row ∈ rows, ∀ row' ∈ rows,
        n.shapeOn? d row = n.shapeOn? d row') ∧
    (∀ trace, record t d rows = .ok trace → trace.Covers t d rows) ∧
    ∀ e, record t d rows = .error e ↔ ∃ before row after, rows = before ++ row :: after ∧
      (∀ r ∈ before, t.Agrees d (rows.head hr) r) ∧ t.Spoils d (rows.head hr) row e := by
  have hcovers : ∀ trace, record t d rows = .ok trace → trace.Covers t d rows :=
    fun trace => covers_of_record hb hr
  refine ⟨⟨?_, ?_⟩, hcovers, fun e => ?_⟩
  · rintro ⟨trace, h⟩
    refine ⟨fun row hrow => ?_, fun id n hn row hrow row' hrow' => ?_⟩
    · obtain ⟨v, hv⟩ := Tree.evaluateAt_of_record h hrow
      exact ⟨_, hv⟩
    · obtain ⟨shape, -, hshape⟩ := (hcovers trace h).shape id n hn
      rw [hshape row hrow, hshape row' hrow']
  · rintro ⟨hevaluates, halike⟩
    obtain ⟨first, rest, rfl⟩ := List.exists_cons_of_ne_nil hr
    cases h : record t d (first :: rest) with
    | ok trace => exact ⟨trace, rfl⟩
    | error e =>
      obtain ⟨before, row, after, heq, -, hrow⟩ := (record_error_iff hb).1 h
      have hmem : row ∈ first :: rest := heq ▸ List.mem_append_right before List.mem_cons_self
      obtain ⟨r, hr'⟩ := hevaluates row hmem
      rcases hrow with he | ⟨-, ⟨n, hn, hne⟩, -⟩
      · exact absurd (hr'.symm.trans he) nofun
      · exact absurd (halike _ n hn row hmem first List.mem_cons_self) hne
  · obtain ⟨first, rest, rfl⟩ := List.exists_cons_of_ne_nil hr
    exact record_error_iff hb

section Mean

/-- The tree `x + mean v`. -/
def meanTree : Tree Float :=
  .node (.fold .add) [.node (.column "x" 1 0 none) [],
    .node (.aggregate .mean) [.node (.column "v" 1 0 none) []]]

/-- Vectors of two elements, but for the third row. -/
def meanData : Dataset Float where
  rows := some 4
  columns := [("x", .numbers #[1, 2, 3, 4]), ("v", .vectors #[[1, 2], [3, 4], [5], [6, 7]])]

theorem record_covers_mean :
    (∃ trace, record meanTree meanData [0, 1, 3] = .ok trace ∧
      trace.Covers meanTree meanData [0, 1, 3]) ∧
    record meanTree meanData [0, 3, 2, 9] = .error (.inconsistentVectorLength 3) ∧
    ∃ before row after, [0, 3, 2, 9] = before ++ row :: after ∧
      (∀ r ∈ before, meanTree.Agrees meanData 0 r) ∧
      meanTree.Spoils meanData 0 row (.inconsistentVectorLength 3) := by
  have hb : meanTree.LeavesBare := by
    simp [meanTree, Tree.leavesBare_node, Symbol.isLeaf]
  have hok : record meanTree meanData [0, 1, 3] =
      .ok ⟨[.scalar, .scalar, .scalar, .vector 2]⟩ := by decide +kernel
  have herror : record meanTree meanData [0, 3, 2, 9] =
      .error (.inconsistentVectorLength 3) := by decide +kernel
  refine ⟨⟨_, hok, ?_⟩, herror, ?_⟩
  · exact (record_covers meanTree meanData [0, 1, 3] hb (by decide)).2.1 _ hok
  · exact ((record_covers meanTree meanData [0, 3, 2, 9] hb (by decide)).2.2 _).1 herror

end Mean

end Trace

end Outcomes

end SymbolicFit
