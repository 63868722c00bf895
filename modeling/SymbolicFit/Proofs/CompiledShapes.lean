import SymbolicFit.Proofs.CompiledSlots
import SymbolicFit.Proofs.DraftOutcomes
import SymbolicFit.Proofs.EvaluatedLeaves
import SymbolicFit.Proofs.ShapedRelation

/-!
Compilation and evaluation agree on shapes. With the trace that is recorded on some rows, each node
is compiled to the shape it is evaluated to, and every input can be read on these rows.
-/

namespace SymbolicFit

variable {α β γ β' γ' : Type}

def Failure.IsUnsupported (e : Failure) : Prop := ∃ node name, e = .unsupportedSymbol node name

namespace Shaped

theorem shape_map (f : β → γ) (a : Shaped β) : (a.map f).shape = a.shape := by
  cases a with
  | scalar x => rfl
  | vector xs => rw [map, shape, shape, List.length_map]

theorem related_iff_shape_eq {a : Shaped β} {b : Shaped γ} :
    a.Related (fun _ _ => True) b ↔ a.shape = b.shape := by
  cases a with
  | scalar x => cases b <;> simp [Related, shape]
  | vector xs => cases b <;> simp [Related, shape, List.forall₂_iff_zip]

/-- Operands with the shapes of two that combine do combine, and to the same shape. -/
theorem broadcast_of_shape_eq {a : Shaped β} {b : Shaped γ} {a' : Shaped β'} {b' : Shaped γ'}
    (h : a.shape = b.shape) (h' : a'.shape = b'.shape) {id : Nat} {p : Shaped (γ × γ')}
    (hp : b.broadcast id b' = .ok p) :
    ∃ q, a.broadcast id a' = .ok q ∧ q.shape = p.shape := by
  have hb := related_iff_shape_eq.2 h.symm
  have hb' := related_iff_shape_eq.2 h'.symm
  obtain ⟨q, hq, hpq⟩ := hb.broadcast hb' hp
  exact ⟨q, hq, (related_iff_shape_eq.1 (hpq.imp fun _ _ _ => trivial)).symm⟩

end Shaped

namespace Drafting.Compiles

variable {R : ColumnRead → Prop} {Q : β → Prop}

theorem unsupported (id : Nat) (s : Symbol α) :
    Compiles Failure.IsUnsupported R (unsupported id s : Drafting α β) Q :=
  throw ⟨id, s.name, rfl⟩

theorem combine {E : Failure → Prop} {id : Nat} {op : BinaryOp} {f : β → β → β}
    {a b : Shaped Nat} {v w u : Shaped β} (ha : a.shape = v.shape) (hb : b.shape = w.shape)
    (hu : v.zipWith id f w = .ok u) :
    Compiles E R (combine id op a b : Drafting α (Shaped Nat)) fun out => out.shape = u.shape := by
  obtain ⟨p, hp, rfl⟩ := map_eq_ok.1 hu
  obtain ⟨q, hq, hqp⟩ := Shaped.broadcast_of_shape_eq ha hb hp
  rw [Shaped.shape_map, ← hqp]
  refine (lift (Q := (· = q)) ?_ ?_).bind fun q' hq' => ?_
  · exact fun q' hq' => Except.ok.inj (hq'.symm.trans hq)
  · intro e he
    rw [hq] at he
    cases he
  · rw [hq']
    exact shapedMapM (fun _ => emit _) q

theorem combineAll {E : Failure → Prop} {id : Nat} {op : BinaryOp} {f : β → β → β}
    {as : List (Shaped Nat)} {vs : List (Shaped β)}
    (has : List.Forall₂ (fun a v => a.shape = v.shape) as vs) {a : Shaped Nat}
    {v u : Shaped β} (ha : a.shape = v.shape)
    (hu : vs.foldlM (Shaped.zipWith id f) v = .ok u) :
    Compiles E R (as.foldlM (Drafting.combine id op) a : Drafting α (Shaped Nat))
      fun out => out.shape = u.shape := by
  induction has generalizing a v with
  | nil =>
    cases hu
    exact pure ha
  | cons hb _ ih =>
    rw [List.foldlM_cons] at hu ⊢
    obtain ⟨w, hw, hu⟩ := bind_eq_ok.1 hu
    exact (combine ha hb hw).bind fun c hc => ih hc hu

end Drafting.Compiles

namespace Tree

mutual

/-- The nodes that a reached node reaches follow it in the order of the tree. -/
theorem reached_trans : ∀ (t : Tree α) {n m : Tree α} {i j : Nat}, t.reached[i]? = some n →
    n.reached[j]? = some m → t.reached[i + j]? = some m
  | node s cs, n, m, 0, j, hn, hm => by
    rw [reached, List.getElem?_cons_zero] at hn
    cases hn
    rwa [Nat.zero_add]
  | node s cs, n, m, i + 1, j, hn, hm => by
    rw [reached, List.getElem?_cons_succ] at hn
    rw [reached, Nat.add_right_comm, List.getElem?_cons_succ]
    split_ifs at hn ⊢ with hs
    · cases hn
    · exact reachedAmong_trans cs hn hm

theorem reachedAmong_trans : ∀ (ts : List (Tree α)) {n m : Tree α} {i j : Nat},
    (reachedAmong ts)[i]? = some n → n.reached[j]? = some m →
      (reachedAmong ts)[i + j]? = some m
  | t :: ts, n, m, i, j, hn, hm => by
    rw [reachedAmong] at hn ⊢
    by_cases hi : i < t.reached.length
    · rw [List.getElem?_append_left hi] at hn
      have hij := reached_trans t hn hm
      rwa [List.getElem?_append_left (List.getElem?_eq_some_iff.1 hij).1]
    · have hle : t.reached.length ≤ i := Nat.le_of_not_lt hi
      rw [List.getElem?_append_right hle] at hn
      rw [List.getElem?_append_right (by omega), Nat.sub_add_comm hle]
      exact reachedAmong_trans ts hn hm

end

end Tree

open Drafting (Compiles)

variable [Scalar α] {data : Dataset α} {rows : List Nat}

namespace Dataset

/-- Every row has a place in a signed word, as in any column that fits into memory. -/
def Addressable (d : Dataset α) : Prop := 2 * d.rowCount ≤ UInt64.size

/-- An input that can be read on each of the rows. -/
def Reads (d : Dataset α) (rows : List Nat) (r : ColumnRead) : Prop :=
  ∀ row ∈ rows, ∃ z, r.value d row = .ok z

theorem signedRow_of_lt {row : Nat} (h : 2 * row < UInt64.size) : signedRow row = row := by
  unfold signedRow
  generalize UInt64.size = m at h ⊢
  exact Int.bmod_eq_of_le_mul_two (by omega) (by omega)

omit [Scalar α] in
theorem laggedRow_of_checkRow {d : Dataset α} (hd : d.Addressable) {row : Nat}
    (h : d.checkRow row = .ok ()) : d.laggedRow row 0 = .ok row := by
  have hrow : row < d.rowCount := by
    unfold checkRow at h
    split_ifs at h with hr
    exact hr
  have hsigned : signedRow (row + 0) = row := by
    have hlt : 2 * row < 2 * d.rowCount := by omega
    rw [Int.add_zero, signedRow_of_lt (Nat.lt_of_lt_of_le hlt hd)]
  unfold laggedRow
  rw [hsigned]
  exact if_pos (by omega)

/-- Where the labels of a column are used on the rows, its categories can be read there. -/
theorem reads_category {d : Dataset α} (hd : d.Addressable) {name : String}
    {f : String → Except Failure β} (h : ∀ row ∈ rows, ∃ b, (d.label name row >>= f) = .ok b)
    (category : String) : d.Reads rows ⟨name, some category, 0, none⟩ := by
  intro row hrow
  obtain ⟨b, hb⟩ := h row hrow
  obtain ⟨label, hl, -⟩ := bind_eq_ok.1 hb
  obtain ⟨⟨⟩, hcheck, -⟩ := bind_eq_ok.1 hl
  have hlag := laggedRow_of_checkRow hd hcheck
  exact ⟨_, bind_eq_ok.2 ⟨row, hlag, bind_eq_ok.2 ⟨label, hl, rfl⟩⟩⟩

end Dataset

namespace Symbol

theorem reads_of_scalar {name : String} {w : α} {lag : Int} {index : Option Nat}
    (h : ∀ row ∈ rows, ∃ v, readColumn data row name w lag index = .ok v ∧ v.shape = .scalar) :
    data.Reads rows ⟨name, none, lag, index⟩ := by
  intro row hrow
  obtain ⟨v, hv, hshape⟩ := h row hrow
  obtain ⟨raw, hraw, -, hvalue⟩ := readColumn_ok hv
  rw [hshape] at hraw
  cases raw with
  | scalar z => exact ⟨z, hvalue⟩
  | vector zs => cases hraw

theorem reads_of_vector {name : String} {w : α} {lag : Int} {index : Option Nat} {n : Nat}
    (hrows : rows ≠ [])
    (h : ∀ row ∈ rows, ∃ v, readColumn data row name w lag index = .ok v ∧ v.shape = .vector n) :
    index = none ∧ ∀ k < n, data.Reads rows ⟨name, none, lag, some k⟩ := by
  have hrow : ∀ row ∈ rows, index = none ∧
      ∀ k < n, ∃ z, (⟨name, none, lag, some k⟩ : ColumnRead).value data row = .ok z := by
    intro row hrow
    obtain ⟨v, hv, hshape⟩ := h row hrow
    obtain ⟨raw, hraw, -, hvalue⟩ := readColumn_ok hv
    rw [hshape] at hraw
    cases raw with
    | scalar z => cases hraw
    | vector zs =>
      cases hraw
      exact ⟨hvalue.1, fun k hk => ⟨zs[k], hvalue.2.2 k hk⟩⟩
  obtain ⟨row₀, hrow₀⟩ := List.exists_mem_of_ne_nil rows hrows
  exact ⟨(hrow row₀ hrow₀).1, fun k hk row hr => (hrow row hr).2 k hk⟩

omit [Scalar α] in
/-- A factor compiles where its categories can be read. -/
theorem factor_compiles {E : Failure → Prop} {R : ColumnRead → Prop} {o : FitOptions}
    {shape : Shape} {id : Nat} {name : String} {ws : List (String × α)}
    {x : Drafting α (Shaped Nat)} (hx : (factor name ws).compileLeaf? o shape id = some x)
    (hreads : ∀ category, R ⟨name, some category, 0, none⟩) :
    Compiles E R x fun out => out.shape = .scalar := by
  cases hx
  refine (Compiles.mapM fun cw _ => ?_).bind fun addends _ => ?_
  · exact (Compiles.weight o id _ cw.2).bind fun i _ => .weighted (hreads cw.1) i
  · exact .map ((Compiles.emit _).imp fun _ _ => rfl)

/-- A leaf compiles to the shape of its value when it can be read on every row. -/
theorem compileLeaf_compiles (hd : data.Addressable) {o : FitOptions} {shape : Shape} {id : Nat}
    {s : Symbol α} {x : Drafting α (Shaped Nat)} (hrows : rows ≠ [])
    (hx : s.compileLeaf? o shape id = some x)
    (hs : ∀ row ∈ rows, ∃ v, s.leaf? data row id = some (.ok v) ∧ v.shape = shape) :
    Compiles Failure.IsUnsupported (data.Reads rows) x fun out => out.shape = shape := by
  obtain ⟨row₀, hrow₀⟩ := List.exists_mem_of_ne_nil rows hrows
  obtain ⟨v₀, hv₀, hshape⟩ := hs row₀ hrow₀
  have hscalar : (∀ name w lag, s ≠ column name w lag none) → .scalar = shape :=
    fun h => (shape_of_leaf? hv₀ fun name w lag hs => absurd hs (h name w lag)).symm.trans hshape
  cases s with
  | constant v =>
    cases hx
    refine .map (Compiles.imp (P := fun _ => True) ?_ fun _ _ => hscalar fun _ _ _ h => by cases h)
    split_ifs
    · exact .parameter id _ v
    · exact .emit _
  | fixed v =>
    cases hx
    exact .map ((Compiles.emit _).imp fun _ _ => hscalar fun _ _ _ h => by cases h)
  | column name w lag index =>
    cases hx
    have hread : ∀ row ∈ rows, ∃ v, readColumn data row name w lag index = .ok v ∧
        v.shape = shape :=
      fun row hrow => (hs row hrow).imp fun v hv => hv.imp_left Option.some.inj
    refine (Compiles.weight o id .columnWeight w).bind fun i _ => ?_
    cases shape with
    | scalar =>
      have hj : Compiles Failure.IsUnsupported (data.Reads rows)
          (Drafting.weighted (α := α) ⟨name, none, lag, index⟩ i) fun _ => True :=
        .weighted (reads_of_scalar hread) i
      cases index <;> exact .map (hj.imp fun _ _ => rfl)
    | vector n =>
      obtain ⟨rfl, hreads⟩ := reads_of_vector hrows hread
      refine .map ((Compiles.mapM fun k hk => ?_).imp fun js hjs => ?_)
      · exact .weighted (hreads k (List.mem_range.1 hk)) i
      · rw [Shaped.shape, hjs, List.length_range]
  | indicator name category w =>
    cases hx
    have hreads := Dataset.reads_category hd fun row hrow =>
      (hs row hrow).imp fun v hv => Option.some.inj hv.1
    refine (Compiles.weight o id .columnWeight w).bind fun i _ => ?_
    exact .map ((Compiles.weighted (hreads category) i).imp
      fun _ _ => hscalar fun _ _ _ h => by cases h)
  | factor name ws =>
    have hreads := Dataset.reads_category hd fun row hrow =>
      (hs row hrow).imp fun v hv => Option.some.inj hv.1
    exact (factor_compiles hx hreads).imp fun out hout =>
      hout.trans (hscalar fun _ _ _ h => by cases h)
  | _ => cases hx

/-- An operation on compiled children gives the shape of the operation on their values. -/
theorem assemble_compiles {R : ColumnRead → Prop} {id : Nat} {s : Symbol α}
    {args : List (Shaped Nat)} {vs : List (Shaped α)}
    (h : List.Forall₂ (fun a v => a.shape = v.shape) args vs) {v : Shaped α}
    (hv : s.combine id vs = .ok v) :
    Compiles Failure.IsUnsupported R (s.assemble id args) fun out => out.shape = v.shape := by
  unfold assemble
  split
  case h_1 op a rest =>
    obtain _ | ⟨ha, hrest⟩ := h
    split
    · obtain rfl := List.forall₂_nil_left_iff.1 hrest
      cases hv
      exact .pure (ha.trans (Shaped.shape_map _ _).symm)
    · obtain rfl := List.forall₂_nil_left_iff.1 hrest
      cases hv
      rw [Shaped.shape_map, ← ha]
      exact .shapedMapM (fun _ => .emit _) a
    · rename_i u hop hnone hsome
      cases hrest with
      | nil =>
        -- a single argument has been treated
        cases u with
        | none => exact (hnone rfl rfl).elim
        | some f => exact (hsome f rfl rfl).elim
      | cons hb hrest => exact .combineAll (.cons hb hrest) ha hv
    · exact .unsupported id _
  case h_2 a b =>
    obtain _ | ⟨ha, _ | ⟨hb, _ | _⟩⟩ := h
    exact .combine ha hb hv
  case h_3 f a =>
    obtain _ | ⟨ha, _ | _⟩ := h
    cases hv
    rw [Shaped.shape_map, ← ha]
    exact .shapedMapM (fun _ => .emit _) a
  case h_4 g a =>
    obtain _ | ⟨ha, _ | _⟩ := h
    cases hv
    exact .map ((Compiles.aggregate g a.toList).imp fun _ _ => rfl)
  case h_5 a =>
    obtain _ | ⟨ha, _ | _⟩ := h
    cases hv
    exact .pure ha
  case h_6 => exact .unsupported id _

theorem shape_of_exponent {id : Nat} {s : Symbol α} {a b v : Shaped α}
    (hs : s.takesExponent = true) (h : s.combine id [a, b] = .ok v) : v.shape = a.shape := by
  cases s with
  | power | root =>
    cases b with
    | scalar n =>
      cases h
      exact Shaped.shape_map _ a
    | vector ns => cases h
  | _ => cases hs

end Symbol

namespace Tree

variable {o : FitOptions} {trace : Option Trace}

theorem Traced.root {id : Nat} {t : Tree α} {ts : List (Tree α)}
    (h : Traced data rows trace id (t :: ts)) {row : Nat} (hr : row ∈ rows) :
    HasShape data row (t, id) (Trace.shapeOf trace id) := by
  refine h (t, id) ?_ row hr
  obtain ⟨s, cs⟩ := t
  rw [reachedAmong, reached, List.cons_append, List.zipIdx_cons]
  exact List.mem_cons_self

theorem HasShape.shape_eq {row id : Nat} {t : Tree α} {shape : Shape}
    (h : HasShape data row (t, id) shape) {v : Shaped α} {shapes : List Shape}
    (hv : t.evaluateAt data row id = .ok (v, shapes)) : v.shape = shape := by
  obtain ⟨w, shapes', hw, hshape⟩ := h
  have hvw : v = w := (Prod.ext_iff.1 (Except.ok.inj (hv.symm.trans hw))).1
  rw [hvw, hshape]

theorem HasShape.leaf {row id : Nat} {s : Symbol α} {cs : List (Tree α)} {shape : Shape}
    (hs : s.isLeaf = true) (h : HasShape data row (node s cs, id) shape) :
    ∃ v, s.leaf? data row id = some (.ok v) ∧ v.shape = shape := by
  obtain ⟨v, shapes, hv, hshape⟩ := h
  obtain ⟨hleaf, -⟩ | ⟨hn, -⟩ := evaluateAt_ok.1 hv
  · exact ⟨v, hleaf, hshape⟩
  · simp [Symbol.isLeaf_of_leaf?_eq_none hn] at hs

theorem HasShape.operation {row id : Nat} {s : Symbol α} {cs : List (Tree α)} {shape : Shape}
    (hs : s.isLeaf = false) (h : HasShape data row (node s cs, id) shape) :
    ∃ vs shapes v, evaluateAllAt data row (id + 1) cs = .ok (vs, shapes) ∧
      s.combine id vs = .ok v ∧ v.shape = shape := by
  obtain ⟨v, shapes, hv, hshape⟩ := h
  obtain ⟨hleaf, -⟩ | ⟨-, vs, shapes', hvs, hcombine, -⟩ := evaluateAt_ok.1 hv
  · simp [Symbol.isLeaf_of_leaf? hleaf] at hs
  · exact ⟨vs, shapes', v, hvs, hcombine, hshape⟩

theorem traced_cons {id : Nat} {t : Tree α} {ts : List (Tree α)} :
    Traced data rows trace id (t :: ts) ↔
      Traced data rows trace id [t] ∧ Traced data rows trace (id + t.reach) ts := by
  simp only [Traced, reachedAmong, List.append_nil, List.zipIdx_append, length_reached,
    List.mem_append, or_imp, forall_and]

theorem Traced.children {id : Nat} {s : Symbol α} {cs : List (Tree α)} (hs : s.isLeaf = false)
    (h : Traced data rows trace id [node s cs]) : Traced data rows trace (id + 1) cs := by
  intro p hp
  refine h p ?_
  rw [reachedAmong, reachedAmong, reached, hs, List.append_nil, List.zipIdx_cons]
  exact List.mem_cons_of_mem _ hp

mutual

/-- A traced tree compiles to the shape that the trace holds for it. -/
theorem compileAt_compiles (hd : data.Addressable) (hrows : rows ≠ []) :
    ∀ (t : Tree α) (id : Nat), Traced data rows trace id [t] →
      Compiles Failure.IsUnsupported (data.Reads rows) (t.compileAt o trace id)
        fun out => out.shape = Trace.shapeOf trace id
  | node s cs, id, ht => by
    cases hs : s.isLeaf
    · by_cases ha : s.accepts (Trace.shapeOf trace (id + 1)) cs.length = true
      · obtain ⟨row, hrow⟩ := List.exists_mem_of_ne_nil rows hrows
        obtain ⟨vs, shapes, v, hvs, hcombine, hshape⟩ := (ht.root hrow).operation hs
        have hcs := ht.children hs
        rw [← hshape]
        rcases exponent_cases s cs with ⟨he, base, exponent, rfl⟩ | he
        · rw [compileAt_exponent he]
          have hbase := compileAt_compiles hd hrows base (id + 1) (traced_cons.1 hcs).1
          -- the exponent is evaluated but not compiled
          obtain ⟨w, ws, shapes₁, shapes₂, hw, hws, rfl, -⟩ := evaluateAllAt_cons_ok.1 hvs
          obtain ⟨u, us, shapes₃, shapes₄, hu, hus, rfl, -⟩ := evaluateAllAt_cons_ok.1 hws
          cases hus
          refine hbase.bind fun x hx => ?_
          rw [Symbol.shape_of_exponent he hcombine, (hcs.root hrow).shape_eq hw, ← hx]
          split
          · exact .shapedMapM (fun _ => .emit _) x
          · exact .unsupported id s
        · rw [compileAt_other hs he ha]
          exact (compileAllAt_compiles hd hrows cs (id + 1) hcs hrow hvs).bind
            fun args hargs => Symbol.assemble_compiles hargs hcombine
      · rw [compileAt_rejected hs ha]
        exact .unsupported id s
    · obtain ⟨x, hx⟩ := Symbol.compileLeaf?_of_isLeaf hs o (Trace.shapeOf trace id) id
      rw [compileAt_leaf hx]
      exact Symbol.compileLeaf_compiles hd hrows hx fun row hrow => (ht.root hrow).leaf hs

theorem compileAllAt_compiles (hd : data.Addressable) (hrows : rows ≠ []) :
    ∀ (ts : List (Tree α)) (id : Nat), Traced data rows trace id ts →
      ∀ {row : Nat} {vs : List (Shaped α)} {shapes : List Shape}, row ∈ rows →
      evaluateAllAt data row id ts = .ok (vs, shapes) →
        Compiles Failure.IsUnsupported (data.Reads rows) (compileAllAt o trace id ts)
          fun args => List.Forall₂ (fun a v => a.shape = v.shape) args vs
  | [], id, _, row, vs, shapes, _, hvs => by
    cases hvs
    exact .pure .nil
  | t :: ts, id, ht, row, vs, shapes, hrow, hvs => by
    obtain ⟨v, vs', shapes', shapes'', hv, hvs', rfl, -⟩ := evaluateAllAt_cons_ok.1 hvs
    have hshape := (ht.root hrow).shape_eq hv
    obtain ⟨ht₀, hts⟩ := traced_cons.1 ht
    rw [compileAllAt]
    refine (compileAt_compiles hd hrows t id ht₀).bind fun x hx => ?_
    refine (compileAllAt_compiles hd hrows ts (id + t.reach) hts hrow hvs').bind fun xs hxs => ?_
    exact .pure (.cons (hx.trans hshape.symm) hxs)

end

/-- What compilation fails with, given the shape of the whole tree. -/
def RootFailure (shape : Shape) (e : Failure) : Prop :=
  e.IsUnsupported ∨ ∃ n, shape = .vector n ∧ e = .broadcastMismatch 0 n 1

omit [Scalar α] in
theorem scalar_compiles {E : Failure → Prop} {R : ColumnRead → Prop} (x : Shaped Nat)
    (h : ∀ n, x.shape = .vector n → E (.broadcastMismatch 0 n 1)) :
    Compiles E R (compileOutput.scalar x : Drafting α Nat) fun _ => True := by
  cases x with
  | scalar i => exact .pure trivial
  | vector is => exact .throw (h is.length rfl)

/-- The output compiles where the tree does, unless the tree is a vector. -/
theorem output_compiles {E : Failure → Prop} {R : ColumnRead → Prop} {t : Tree α} {shape : Shape}
    (ht : Compiles E R (t.compileAt o trace 0) fun out => out.shape = shape)
    (h : ∀ n, shape = .vector n → E (.broadcastMismatch 0 n 1)) :
    Compiles E R (t.compileOutput o trace) fun _ => True := by
  have hscalar : ∀ out : Shaped Nat, out.shape = shape →
      Compiles E R (compileOutput.scalar out : Drafting α Nat) fun _ => True :=
    fun out hout => scalar_compiles out (hout ▸ h)
  unfold compileOutput
  split_ifs
  · exact (Compiles.parameter 0 _ _).bind fun _ _ => (Compiles.parameter 0 _ _).bind fun _ _ =>
      ht.bind fun out hout => (hscalar out hout).bind fun _ _ =>
        (Compiles.emit _).bind fun _ _ => .emit _
  · exact ht.bind hscalar

theorem compileOutput_compiles (hd : data.Addressable) (hrows : rows ≠ []) {t : Tree α}
    (ht : Traced data rows trace 0 [t]) :
    Compiles (RootFailure (Trace.shapeOf trace 0)) (data.Reads rows) (t.compileOutput o trace)
      fun _ => True :=
  output_compiles ((compileAt_compiles hd hrows t 0 ht).imp_error fun _ => .inl)
    fun n hn => .inr ⟨n, hn, rfl⟩

/-- The nodes that a reached node reaches are reached from the root. -/
theorem Traced.of_reached {t n : Tree α} {id : Nat} (h : Traced data rows trace 0 [t])
    (hn : t.reached[id]? = some n) : Traced data rows trace id [n] := by
  rintro ⟨m, j⟩ hm
  rw [reachedAmong, reachedAmong, List.append_nil,
    List.mk_mem_zipIdx_iff_le_and_getElem?_sub] at hm
  have hj := reached_trans t hn hm.2
  rw [Nat.add_sub_cancel' hm.1] at hj
  refine h (m, j) ?_
  rw [reachedAmong, reachedAmong, List.append_nil]
  exact List.mem_zipIdx_iff_getElem?.2 hj

end Tree

namespace Dataset

theorem tabulate_of_reads {d : Dataset α} {inputs : List ColumnRead} (hrows : rows ≠ [])
    (h : ∀ r ∈ inputs, d.Reads rows r) (target : String) :
    (d.tabulate inputs target rows).map (·.2) = d.numbers target rows := by
  have hentries : ∃ entries, (rows.mapM fun row => inputs.mapM fun r => r.value d row) =
      .ok entries :=
    exists_mapM_ok fun row hrow => exists_mapM_ok fun r hr => h r hr row hrow
  obtain ⟨entries, hentries⟩ := hentries
  have hlen : entries.flatten.length = rows.length * inputs.length := by
    rw [length_flatten_of_forall (forall_length_of_mapM hentries),
      (forall₂_of_mapM hentries).length_eq]
  have hdata : DesignMatrix.ofData entries.flatten.toArray rows.length inputs.length =
      .ok ⟨entries.flatten.toArray, rows.length, inputs.length⟩ := if_pos hlen
  unfold tabulate
  rw [if_neg (by simpa using hrows), hentries]
  change (DesignMatrix.ofData _ _ _ >>= fun x => d.numbers target rows >>= fun y =>
    .ok (x, y)).map (·.2) = _
  rw [hdata]
  cases d.numbers target rows <;> rfl

end Dataset

namespace Tree

/-- With the trace of some rows, each node compiles to the shape it is evaluated to, compilation
fails only at an unsupported symbol or because the whole tree is a vector, and tabulating the
inputs on these rows fails only where the target does. -/
theorem compile_shapes (t : Tree α) (data : Dataset α) (hd : data.Addressable) (rows : List Nat)
    (o : FitOptions) {trace : Trace} (h : Trace.record t data rows = .ok trace) :
    (∀ id n, t.reached[id]? = some n → ∀ d out d',
      n.compileAt o (some trace) id d = .ok (out, d') → trace.shape? id = some out.shape) ∧
    (∀ e, t.compile o (some trace) = .error e → e.IsUnsupported ∨
      ∃ n, trace.shape? 0 = some (.vector n) ∧ e = .broadcastMismatch 0 n 1) ∧
    ∀ c, t.compile o (some trace) = .ok c → ∀ target,
      (data.tabulate c.inputs target rows).map (·.2) = data.numbers target rows := by
  have ht := traced_of_record h
  have hrows : rows ≠ [] := by
    rintro rfl
    cases h
  have houtput := compileOutput_compiles (o := o) hd hrows ht
  have hshape : ∀ id, id < t.reach →
      trace.shape? id = some (Trace.shapeOf (some trace) id) := by
    intro id hid
    obtain ⟨row, hrow⟩ := List.exists_mem_of_ne_nil rows hrows
    obtain ⟨v, hv⟩ := evaluateAt_of_record h hrow
    have hlt : id < trace.shapes.length := by rwa [length_shapes hv]
    simp [Trace.shapeOf, Trace.shape?, hlt]
  refine ⟨fun id n hn d out d' hout => ?_, fun e he => ?_, fun c hc target => ?_⟩
  · have hid : id < t.reach := by
      rw [← length_reached]
      exact (List.getElem?_eq_some_iff.1 hn).1
    rw [hshape id hid, ((compileAt_compiles hd hrows n id (ht.of_reached hn)).ok hout).1]
  · have hout : t.compileOutput o (some trace) .empty = .error e := by
      unfold compile at he
      rcases hr : t.compileOutput o (some trace) .empty with e' | ⟨out, d⟩
      · simpa [StateT.run, hr, bind, Except.bind] using he
      · simp [StateT.run, hr, bind, Except.bind, pure, Except.pure] at he
    have hpos : 0 < t.reach := by
      rw [← length_reached]
      obtain ⟨s, cs⟩ := t
      exact Nat.succ_pos _
    rw [hshape 0 hpos]
    simpa only [RootFailure, Option.some.injEq] using houtput.error hout
  · obtain ⟨out, d, hout, rfl⟩ := compile_ok.1 hc
    exact Dataset.tabulate_of_reads hrows
      (fun r hr => ((houtput.ok hout).2 r hr).resolve_left List.not_mem_nil) target

end Tree

section Mean

/-- The tree `mean (2 v) + g`, where `v` is a vector and `g` weighs one category. -/
def meanProduct : Tree Float :=
  .node (.fold .mul) [.node (.column "v" 1 0 none) [], .node (.constant 2) []]

def meanTree : Tree Float :=
  .node (.fold .add) [.node (.aggregate .mean) [meanProduct], .node (.indicator "g" "a" 3) []]

def meanData : Dataset Float where
  rows := some 2
  columns := [("v", .vectors #[[1, 2], [3, 4]]), ("g", .labels #["a", "b"]),
    ("y", .numbers #[6, 7])]

def meanTrace : Trace := ⟨[.scalar, .scalar, .vector 2, .vector 2, .scalar, .scalar]⟩

theorem compile_shapes_mean :
    (∀ d out d', meanProduct.compileAt {} (some meanTrace) 2 d = .ok (out, d') →
      out.shape = .vector 2) ∧
    ∃ c, meanTree.compile {} (some meanTrace) = .ok c ∧
      (meanData.tabulate c.inputs "y" [1, 0]).map (·.2) = .ok [7, 6] := by
  have hd : meanData.Addressable := by
    unfold Dataset.Addressable
    decide
  have ht : Trace.record meanTree meanData [1, 0] = .ok meanTrace := by decide +kernel
  obtain ⟨hshapes, -, htable⟩ := Tree.compile_shapes meanTree meanData hd [1, 0] {} ht
  refine ⟨fun d out d' hout => ?_, ?_⟩
  · have hproduct : meanTree.reached[2]? = some meanProduct := rfl
    exact (Option.some.inj (hshapes 2 meanProduct hproduct d out d' hout)).symm
  · have hok : (meanTree.compile {} (some meanTrace)).isOk = true := by decide +kernel
    have hy : meanData.numbers "y" [1, 0] = .ok [7, 6] := by decide +kernel
    cases hc : meanTree.compile {} (some meanTrace) with
    | error e => rw [hc] at hok; cases hok
    | ok c => exact ⟨c, rfl, (htable c hc "y").trans hy⟩

end Mean

end SymbolicFit
