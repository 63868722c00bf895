import SymbolicFit.Proofs.CompiledSlots
import SymbolicFit.Proofs.DraftValues
import SymbolicFit.Proofs.EvaluatedLeaves

/-!
A compiled tree computes the value of the tree. On the inputs of a row and with any parameters, the
tape gives the rescaled value of the tree that these parameters are written into.
-/

namespace SymbolicFit

variable {α : Type} [ExactArithmetic α] {e : Point α} {d : Draft α} {o : FitOptions}
  {trace : Option Trace}

open Drafting
open Draft (Holds)

namespace Drafting.Yields

theorem weighted {r : ColumnRead} {i : Nat} {w z : α} (hi : Holds e d i w)
    (hz : ∀ z', r.value e.data e.row = .ok z' → z' = z) :
    Yields d (weighted r i) fun j d' => Holds e d' j (w * z) := by
  rw [mul_comm]
  exact (input hz).bind fun j d' hd hj => binary .mul hj (hi.extend hd)

/-- A weight has the value that is written into the tree. -/
theorem weight (id : Nat) (role : ParameterRole) (v : α)
    (h : o.tunesWeights id = true → d.parameters.length < e.params.length) :
    Yields d (weight o id role v) fun i d' => Holds e d' i
      (if o.tunesWeights id then (e.params.drop d.parameters.length).headD v else v) := by
  unfold Drafting.weight
  by_cases ht : o.tunesWeights id = true
  · have hp := parameter (e := e) (d := d) id role v
    rw [List.getD_eq_getElem _ _ (h ht)] at hp
    rw [if_pos ht, if_pos ht, List.drop_eq_getElem_cons (h ht)]
    exact hp
  · rw [if_neg ht, if_neg ht]
    exact literal v

end Drafting.Yields

namespace FoldOp

variable {op : FoldOp} {b : BinaryOp} {u : UnaryOp}

theorem apply_of_primitive {x : Option UnaryOp} (h : op.primitive? = some (b, x)) :
    (b.apply : α → α → α) = op.apply := by
  cases op <;> cases h <;> rfl

theorem single_of_primitive (h : op.primitive? = some (b, none)) (x : α) : op.single x = x := by
  cases op <;> cases h <;> rfl

theorem apply_of_primitive_single (h : op.primitive? = some (b, some u)) :
    (u.apply : α → α) = op.single := by
  cases op <;> cases h <;> rfl

end FoldOp

namespace Symbol

theorem assemble_yields (id : Nat) (s : Symbol α) {args : List (Shaped Nat)}
    {vs : List (Shaped α)} (h : List.Forall₂ (fun a v => a.Related (Holds e d) v) args vs) :
    Yields d (s.assemble id args) fun out d' =>
      ∃ v, s.combine id vs = .ok v ∧ out.Related (Holds e d') v := by
  unfold assemble
  split
  case h_1 op a rest =>
    obtain _ | ⟨ha, hrest⟩ := h
    split
    · rename_i hop
      obtain rfl := List.forall₂_nil_left_iff.1 hrest
      exact .pure ⟨_, rfl, ha.map_right fun i v hi => by rwa [FoldOp.single_of_primitive hop]⟩
    · rename_i hop
      obtain rfl := List.forall₂_nil_left_iff.1 hrest
      refine (Yields.unaryOn _ ha).imp fun out d' ho => ⟨_, rfl, ?_⟩
      rwa [FoldOp.apply_of_primitive_single hop] at ho
    · rename_i u hop hnone hsome
      cases hrest with
      | nil =>
        -- a single argument has been treated
        cases u with
        | none => exact (hnone rfl rfl).elim
        | some f => exact (hsome f rfl rfl).elim
      | cons hb hrest =>
        refine (Yields.foldlM _ (.cons hb hrest) ha).imp fun out d' ho => ?_
        rwa [FoldOp.apply_of_primitive hop] at ho
    · exact .unsupported
  case h_2 a b =>
    obtain _ | ⟨ha, _ | ⟨hb, _ | _⟩⟩ := h
    exact .combine id .quotient ha hb
  case h_3 f a =>
    obtain _ | ⟨ha, _ | _⟩ := h
    exact (Yields.unaryOn (.elementary f) ha).imp fun out d' ho => ⟨_, rfl, ho⟩
  case h_4 g a =>
    obtain _ | ⟨ha, _ | _⟩ := h
    exact .map ((Yields.aggregate g ha.toList).imp fun i d' hi => ⟨_, rfl, hi⟩)
  case h_5 a =>
    obtain _ | ⟨ha, _ | _⟩ := h
    exact .pure ⟨_, rfl, ha⟩
  case h_6 => exact .unsupported

omit [ExactArithmetic α] in
theorem leaf?_of_accepts [Scalar α] {s : Symbol α} {shape : Shape} {count : Nat}
    (hs : s.isLeaf = false) (ha : s.accepts shape count = true) (data : Dataset α) (row id : Nat) :
    s.leaf? data row id = none := by
  cases s <;> simp_all [isLeaf, accepts, leaf?]

theorem integerExponent?_ok {v : α} {n : Int32} (h : integerExponent? v = some n) :
    v = (n.toInt : α) ∧ Scalar.toInt32 v = n := by
  unfold integerExponent? at h
  dsimp only at h
  split_ifs at h with hv
  have hn := Option.some.inj h
  exact ⟨by rw [← hn]; exact ((ExactRing.beq_iff_eq _ _).1 hv.1).symm, hn⟩

/-- A compiled power or root is the one that is evaluated. -/
theorem exponentOp?_ok {s : Symbol α} {t : Tree α} {op : UnaryOp} (h : s.exponentOp? t = some op) :
    ∃ s' u, t = .node s' [] ∧ (∀ data row id, s'.leaf? data row id = some (.ok (.scalar u))) ∧
      ∀ id v, s.combine id [v, .scalar u] = .ok (v.map op.apply) := by
  have hpower : ∀ {u : α}, (integerExponent? u).map UnaryOp.power = some op →
      ∀ id v, power.combine id [v, .scalar u] = .ok (v.map op.apply) := by
    intro u hu id v
    obtain ⟨n, hn, rfl⟩ := Option.map_eq_some_iff.1 hu
    obtain ⟨rfl, -⟩ := integerExponent?_ok hn
    have hf : (fun x : α => Scalar.pow x (Scalar.round (n.toInt : α))) =
        (UnaryOp.power n).apply := by
      funext x
      rw [ExactArithmetic.round_intCast, ExactArithmetic.pow_intCast]
      rfl
    rw [combine, hf]
  have hroot : ∀ {u : α}, ((integerExponent? u).bind fun n =>
      if n = 0 then none else some (UnaryOp.root n)) = some op →
      ∀ id v, root.combine id [v, .scalar u] = .ok (v.map op.apply) := by
    intro u hu id v
    obtain ⟨n, hn, hu⟩ := Option.bind_eq_some_iff.1 hu
    split_ifs at hu
    cases hu
    obtain ⟨rfl, ht⟩ := integerExponent?_ok hn
    have hf : (fun x : α => Special.nthRoot x (Scalar.toInt32 (Scalar.round (n.toInt : α)))) =
        (UnaryOp.root n).apply := by
      funext x
      rw [ExactArithmetic.round_intCast, ht]
      rfl
    rw [combine, hf]
  unfold exponentOp? at h
  split at h
  · exact ⟨_, _, rfl, fun _ _ _ => rfl, hpower h⟩
  · exact ⟨_, _, rfl, fun _ _ _ => rfl, hpower h⟩
  · exact ⟨_, _, rfl, fun _ _ _ => rfl, hroot h⟩
  · exact ⟨_, _, rfl, fun _ _ _ => rfl, hroot h⟩
  · cases h

/-- The addends of a factor, each parameter in its place. -/
theorem addends_yields (id : Nat) {name label : String} (ws : List (String × α))
    (hl : e.data.label name e.row = .ok label) (hrow : e.row < UInt64.size)
    (hn : o.tunesWeights id = true → d.parameters.length + ws.length ≤ e.params.length) :
    Yields d (ws.mapM fun cw => do
        let w ← weight o id (.categoryWeight cw.1) cw.2
        weighted ⟨name, some cw.1, 0, none⟩ w)
      fun is d' => List.Forall₂ (Holds e d') is
        ((if o.tunesWeights id then (refill ws (e.params.drop d.parameters.length)).1 else ws).map
          fun cw => cw.2 * if label = cw.1 then 1 else 0) := by
  induction ws generalizing d with
  | nil => exact .pure (by cases o.tunesWeights id <;> exact .nil)
  | cons cw ws ih =>
    rw [List.length_cons] at hn
    have hn' : o.tunesWeights id = true → d.parameters.length < e.params.length := by
      intro ht
      have := hn ht
      omega
    have hcw := (Yields.weight id (.categoryWeight cw.1) cw.2 hn').bind fun i d' _ hi =>
        Yields.weighted (r := ⟨name, some cw.1, 0, none⟩) hi fun z hz => label_value hrow hl hz
    have hgrows := Yields.grows
      (categoryWeight_follows o id name cw.1 cw.2 cw.2 fun _ => rfl) hcw
    rw [List.mapM_cons]
    refine hgrows.bind fun i d₁ h₁ hi => ?_
    have hlen := congrArg List.length hi.1.parameters
    rw [List.length_append] at hlen
    -- the next weight takes the next parameter exactly when the write takes one
    have hwritten : (if o.tunesWeights id then
          (refill (cw :: ws) (e.params.drop d.parameters.length)).1 else cw :: ws) =
        (cw.1,
          if o.tunesWeights id then (e.params.drop d.parameters.length).headD cw.2 else cw.2) ::
          if o.tunesWeights id then (refill ws (e.params.drop d₁.parameters.length)).1 else ws := by
      by_cases ht : o.tunesWeights id = true
      · simp only [ht, if_true, List.length_singleton] at hlen ⊢
        rw [hlen, List.drop_eq_getElem_cons (hn' ht)]
        rfl
      · simp only [ht]
        rfl
    have hn₁ : o.tunesWeights id = true →
        d₁.parameters.length + ws.length ≤ e.params.length := by
      intro ht
      have := hn ht
      simp only [ht, if_true, List.length_singleton] at hlen
      omega
    rw [hwritten]
    exact (ih hn₁).bind fun is d₂ h₂ his => .pure (.cons (hi.2.extend h₂) his)

/-- A factor has the sum of the weights that are listed for the label. -/
theorem factor_yields {id : Nat} {shape : Shape} {name label : String} {ws : List (String × α)}
    {x : Drafting α (Shaped Nat)} (hx : (factor name ws).compileLeaf? o shape id = some x)
    (hl : e.data.label name e.row = .ok label) (hrow : e.row < UInt64.size)
    (hn : o.tunesWeights id = true → d.parameters.length + ws.length ≤ e.params.length) :
    Yields d x fun out d' => out.Related (Holds e d') (.scalar (listed
      (if o.tunesWeights id then (refill ws (e.params.drop d.parameters.length)).1 else ws)
      label).sum) := by
  cases hx
  refine (addends_yields id ws hl hrow hn).bind fun is d₁ h₁ his => ?_
  refine .map ((Yields.sum his).imp fun j d' hj => ?_)
  rwa [ExactRing.sum_eq, sum_listed] at hj

theorem compileLeaf_yields {id : Nat} {s : Symbol α} {x : Drafting α (Shaped Nat)}
    (hx : s.compileLeaf? o (Trace.shapeOf trace id) id = some x)
    (hs : ∀ value, s.leaf? e.data e.row id = some value →
      ∃ v, value = .ok v ∧ v.shape = Trace.shapeOf trace id)
    (hf : s.DistinctCategories) (hrow : e.row < UInt64.size)
    (hn : d.parameters.length + (s.tunable o id).length ≤ e.params.length) :
    Yields d x fun out d' => ∃ v,
      (s.assign o id (e.params.drop d.parameters.length)).1.leaf? e.data e.row id = some (.ok v) ∧
        out.Related (Holds e d') v := by
  cases s with
  | constant v =>
    rw [assign_constant]
    cases hx
    refine .map (Yields.imp ?_ fun i d' hi => ⟨.scalar _, rfl, hi⟩)
    by_cases ht : o.tunes id = true
    · have hlt : d.parameters.length < e.params.length := by
        simp only [tunable, ht, if_true, List.length_singleton] at hn
        omega
      have hp := Yields.parameter (e := e) (d := d) id .constant v
      rw [List.getD_eq_getElem _ _ hlt] at hp
      rw [if_pos ht, if_pos ht, List.drop_eq_getElem_cons hlt]
      exact hp
    · rw [if_neg ht, if_neg ht]
      exact .literal v
  | fixed v =>
    cases hx
    exact .map ((Yields.literal v).imp fun i d' hi => ⟨_, rfl, hi⟩)
  | column name v lag index =>
    rw [assign_column]
    obtain ⟨u, hu, hshape⟩ := hs _ rfl
    -- `u` was read with the old weight; `hread` reads the same column with any other
    obtain ⟨raw, hraw, hread, hvalue⟩ := readColumn_ok hu
    cases hx
    refine (Yields.weight (e := e) id .columnWeight v fun ht => ?_).bind fun i d₁ h₁ hi => ?_
    · simp only [tunable, ht, if_true, List.length_singleton] at hn
      omega
    rw [← hshape, ← hraw]
    generalize (if o.tunesWeights id then _ else v) = w at hi ⊢
    cases raw with
    | scalar z =>
      have hj : Yields d₁ (Shaped.scalar <$> weighted ⟨name, none, lag, index⟩ i) fun out d' =>
          ∃ u, some (readColumn e.data e.row name w lag index) = some (.ok u) ∧
            out.Related (Holds e d') u :=
        .map ((Yields.weighted hi fun z' hz => Except.ok.inj (hz.symm.trans hvalue)).imp
          fun j d' hj => ⟨_, congrArg some (hread w), hj⟩)
      cases index <;> exact hj
    | vector zs =>
      obtain ⟨rfl, -, hzs⟩ := hvalue
      refine .map ((Yields.mapM ?_).imp fun js d' hjs => ⟨_, congrArg some (hread _), hjs⟩)
      refine List.forall₂_map_right_iff.2 (List.forall₂_iff_get.2 ⟨by simp, fun k hk hk' => ?_⟩)
      intro d' hd
      rw [List.get_eq_getElem, List.getElem_range]
      exact Yields.weighted (hi.extend hd) fun z hz => Except.ok.inj (hz.symm.trans (hzs k hk'))
  | indicator name category v =>
    rw [assign_indicator]
    obtain ⟨u, hu, -⟩ := hs _ rfl
    obtain ⟨label, hl, -⟩ := bind_eq_ok.1 hu
    cases hx
    refine (Yields.weight (e := e) id .columnWeight v fun ht => ?_).bind fun i d₁ h₁ hi => ?_
    · simp only [tunable, ht, if_true, List.length_singleton] at hn
      omega
    refine .map ((Yields.weighted hi fun z hz => label_value hrow hl hz).imp fun j d' hj => ?_)
    rw [mul_ite, mul_one, mul_zero] at hj
    refine ⟨.scalar _, ?_, hj⟩
    rw [leaf?, hl]
    rfl
  | factor name vs =>
    rw [assign_factor]
    obtain ⟨u, hu, -⟩ := hs _ rfl
    obtain ⟨label, hl, -⟩ := bind_eq_ok.1 hu
    have hcategories : ((if o.tunesWeights id then
        (refill vs (e.params.drop d.parameters.length)).1 else vs).map (·.1)).Nodup := by
      split_ifs
      · rw [map_fst_refill]
        exact hf name vs rfl
      · exact hf name vs rfl
    refine (factor_yields hx hl hrow fun ht => ?_).imp fun out d' hout => ⟨.scalar _, ?_, hout⟩
    · simpa only [tunable, ht, if_true, List.length_map] using hn
    · rw [leaf?, hl, sum_indicator label hcategories]
      rfl
  | _ => cases hx

end Symbol

theorem Rescaling.getD_of_ofParameters? {params : List α} {r : Rescaling α}
    (h : Rescaling.ofParameters? params = some r) :
    params.getD 1 0 = r.factor ∧ params.getD 0 0 = r.offset := by
  unfold ofParameters? at h
  split at h
  · cases h
    exact ⟨rfl, rfl⟩
  · cases h

namespace Tree

mutual

/-- A compiled tree has the value of the tree that the parameters are written into. -/
theorem compileAt_yields (hrow : e.row < UInt64.size) : ∀ (t : Tree α) (id : Nat) (d : Draft α),
    t.LeavesBare → t.DistinctCategories → LeavesRead e.data e.row trace id [t] →
    d.parameters.length + (t.tunable o id).length ≤ e.params.length →
    Yields d (t.compileAt o trace id) fun out d' => ∃ v shapes,
      (t.assign o id (e.params.drop d.parameters.length)).1.evaluateAt e.data e.row id =
        .ok (v, shapes) ∧ out.Related (Holds e d') v
  | node s cs, id, d, hb, hd, hr, hn => by
    obtain ⟨hl, hbs⟩ := leavesBare_node.1 hb
    obtain ⟨hf, hds⟩ := distinctCategories_node.1 hd
    obtain ⟨hread, hrs⟩ := leavesRead_node.1 hr
    cases hs : s.isLeaf
    · by_cases ha : s.accepts (Trace.shapeOf trace (id + 1)) cs.length = true
      · have hleaf := Symbol.leaf?_of_accepts hs ha e.data e.row id
        rcases exponent_cases s cs with ⟨he, base, exponent, rfl⟩ | he
        · simp only [List.forall_mem_cons] at hbs hds
          rw [tunable_exponent o id he] at hn
          rw [assign_exponent o id he, compileAt_exponent he]
          refine (compileAt_yields hrow base (id + 1) d hbs.1 hds.1 (leavesRead_cons.1 hrs).1
            hn).bind fun x d₁ h₁ hx => ?_
          obtain ⟨v, shapes, hv, hx⟩ := hx
          split
          · rename_i op hop
            -- the exponent is not compiled, but the interpreter does evaluate it
            obtain ⟨s', u, rfl, hu, hcombine⟩ := Symbol.exponentOp?_ok hop
            have hvs : evaluateAllAt e.data e.row (id + 1) [_, node s' []] =
                .ok ([v, .scalar u], _) :=
              evaluateAllAt_cons_ok.2 ⟨v, [.scalar u], shapes, _, hv, evaluateAllAt_cons_ok.2
                ⟨.scalar u, [], _, [], evaluateAt_ok.2 (Or.inl ⟨hu _ _ _, rfl⟩), rfl, rfl, rfl⟩,
                rfl, rfl⟩
            exact (Yields.unaryOn op hx).imp fun out d' hout => ⟨_, _,
              evaluateAt_ok.2 (Or.inr ⟨hleaf, _, _, hvs, hcombine id v, rfl⟩), hout⟩
          · exact .unsupported
        · rw [tunable_other o id he, List.length_append] at hn
          rw [assign_other o id he, Symbol.assign_of_not_isLeaf o id s _ hs,
            compileAt_other hs he ha]
          refine (compileAllAt_yields hrow cs (id + 1) d hbs hds hrs (by omega)).bind
            fun args d₁ h₁ hargs => ?_
          obtain ⟨vs, shapes, hvs, hargs⟩ := hargs
          refine (Symbol.assemble_yields id s hargs).imp fun out d' hv => ?_
          obtain ⟨v, hv, hout⟩ := hv
          exact ⟨v, _, evaluateAt_ok.2 (Or.inr ⟨hleaf, vs, shapes, hvs, hv, rfl⟩), hout⟩
      · rw [compileAt_rejected hs ha]
        exact .unsupported
    · obtain rfl := hl hs
      have he : s.takesExponent = true → ([] : List (Tree α)).length ≠ 2 := fun _ => nofun
      obtain ⟨x, hx⟩ := Symbol.compileLeaf?_of_isLeaf hs o (Trace.shapeOf trace id) id
      rw [tunable_other o id he, List.length_append] at hn
      rw [assign_other o id he, compileAt_leaf hx]
      refine (Symbol.compileLeaf_yields hx hread hf hrow (by omega)).imp fun out d' hv => ?_
      obtain ⟨v, hv, hout⟩ := hv
      exact ⟨v, _, evaluateAt_ok.2 (Or.inl ⟨hv, rfl⟩), hout⟩

theorem compileAllAt_yields (hrow : e.row < UInt64.size) : ∀ (ts : List (Tree α)) (id : Nat)
    (d : Draft α), (∀ t ∈ ts, t.LeavesBare) → (∀ t ∈ ts, t.DistinctCategories) →
    LeavesRead e.data e.row trace id ts →
    d.parameters.length + (tunableAmong o id ts).length ≤ e.params.length →
    Yields d (compileAllAt o trace id ts) fun outs d' => ∃ vs shapes,
      evaluateAllAt e.data e.row id (assignAmong o id ts (e.params.drop d.parameters.length)).1 =
        .ok (vs, shapes) ∧ List.Forall₂ (fun out v => out.Related (Holds e d') v) outs vs
  | [], id, d, _, _, _, _ => .pure ⟨[], [], rfl, .nil⟩
  | t :: ts, id, d, hb, hd, hr, hn => by
    obtain ⟨hbt, hbs⟩ := List.forall_mem_cons.1 hb
    obtain ⟨hdt, hds⟩ := List.forall_mem_cons.1 hd
    obtain ⟨hrt, hrs⟩ := leavesRead_cons.1 hr
    rw [tunableAmong, List.length_append] at hn
    rw [compileAllAt, reach_eq_size t hbt]
    -- the later trees read the parameters from where the first one left them
    have ht := compileAt_yields hrow t id d hbt hdt hrt (by omega)
    have hgrows : Follows (slotsFrom o id [t]) (t.compileAt o trace id) _ :=
      compileAt_follows t id [] hbt
    refine (Yields.grows hgrows ht).bind fun out d₁ h₁ hout => ?_
    obtain ⟨hgrow, v, shapes, hv, hout⟩ := hout
    have hlen : d₁.parameters.length = d.parameters.length + (t.tunable o id).length := by
      rw [hgrow.parameters, List.length_append, tunable_eq_slotsFrom, List.length_map]
    refine (compileAllAt_yields hrow ts (id + t.size) d₁ hbs hds hrs (by omega)).bind
      fun outs d₂ h₂ houts => ?_
    obtain ⟨vs, shapes', hvs, houts⟩ := houts
    refine .pure ⟨v :: vs, shapes ++ shapes', ?_, .cons (hout.imp fun _ _ hi => hi.extend h₂) houts⟩
    rw [assignAmong_cons, assign_snd, List.drop_drop, ← hlen]
    refine evaluateAllAt_cons_ok.2 ⟨v, vs, shapes, shapes', hv, ?_, rfl, rfl⟩
    rwa [reach_eq_size _ (leavesBare_assign o t id _ hbt), size_assign]

end

theorem scalar_yields {out : Shaped Nat} {v : Shaped α} (h : out.Related (Holds e d) v) :
    Yields d (compileOutput.scalar out) fun i d' => ∃ x, v = .scalar x ∧ Holds e d' i x := by
  cases out with
  | scalar i =>
    cases v with
    | scalar x => exact .pure ⟨x, rfl, h⟩
    | vector xs => exact h.elim
  | vector is => exact fun _ _ hi => nomatch hi

/-- The output is the rescaled value of the tree, whatever is known of that value. -/
theorem output_yields {t : Tree α} {r : Rescaling α} {P : Shaped α → Prop}
    (htree : ∀ d : Draft α, d.parameters.length = o.offset →
      Yields d (t.compileAt o trace 0) fun out d' => ∃ v, P v ∧ out.Related (Holds e d') v)
    (hr : (if o.rescale then Rescaling.ofParameters? e.params else some ⟨1, 0⟩) = some r) :
    Yields .empty (t.compileOutput o trace) fun out d' => ∃ x, P (.scalar x) ∧
      Holds e d' out (r.factor * x + r.offset) := by
  unfold compileOutput
  split_ifs at hr ⊢ with ho
  · have hoffset : o.offset = 2 := if_pos ho
    refine (Yields.grows (.parameter 0 .offset 0 0) (.parameter (e := e) 0 .offset 0)).bind
      fun i d₁ _ hi => ?_
    refine (Yields.grows (.parameter 0 .factor 1 1) (.parameter (e := e) 0 .factor 1)).bind
      fun j d₂ h₂ hj => ?_
    have hlen₁ : d₁.parameters.length = 1 := by rw [hi.1.parameters]; rfl
    have hlen₂ : d₂.parameters.length = o.offset := by
      rw [hj.1.parameters, List.length_append, hlen₁, hoffset]
      rfl
    refine (htree d₂ hlen₂).bind fun out d₃ h₃ hout => ?_
    obtain ⟨v, hv, hout⟩ := hout
    refine (scalar_yields hout).bind fun k d₄ h₄ hk => ?_
    obtain ⟨x, rfl, hk⟩ := hk
    -- what the two rescaling entries hold survives the entries of the tree
    have hi' := ((hi.2.extend h₂).extend h₃).extend h₄
    have hj' := (hj.2.extend h₃).extend h₄
    rw [hlen₁] at hj'
    obtain ⟨hfactor, hoffset⟩ := Rescaling.getD_of_ofParameters? hr
    rw [hfactor] at hj'
    rw [show (Draft.empty : Draft α).parameters.length = 0 from rfl, hoffset] at hi'
    refine (Yields.binary .mul hj' hk).bind fun l d₅ h₅ hl => ?_
    exact (Yields.binary .add hl (hi'.extend h₅)).imp fun out d₆ hout => ⟨x, hv, hout⟩
  · cases hr
    refine (htree .empty (if_neg ho).symm).bind fun out d₁ h₁ hout => ?_
    obtain ⟨v, hv, hout⟩ := hout
    refine (scalar_yields hout).imp fun i d₂ hi => ?_
    obtain ⟨x, rfl, hi⟩ := hi
    exact ⟨x, hv, by rwa [one_mul, add_zero]⟩

theorem compileOutput_yields {t : Tree α} {r : Rescaling α} (hrow : e.row < UInt64.size)
    (hb : t.LeavesBare) (hd : t.DistinctCategories) (hread : LeavesRead e.data e.row trace 0 [t])
    (hn : e.params.length = o.offset + t.tunableCount o)
    (hr : (if o.rescale then Rescaling.ofParameters? e.params else some ⟨1, 0⟩) = some r) :
    Yields .empty (t.compileOutput o trace) fun out d' => ∃ v,
      (t.assign o 0 (e.params.drop o.offset)).1.valueAt e.data e.row = .ok v ∧
        Holds e d' out (r.factor * v + r.offset) := by
  have htree : ∀ d : Draft α, d.parameters.length = o.offset →
      Yields d (t.compileAt o trace 0) fun out d' => ∃ v, (∃ shapes,
        (t.assign o 0 (e.params.drop o.offset)).1.evaluateAt e.data e.row 0 = .ok (v, shapes)) ∧
          out.Related (Holds e d') v := by
    intro d hd'
    rw [← hd']
    refine (compileAt_yields hrow t 0 d hb hd hread (by rw [hn, hd', tunableCount])).imp
      fun out d' hv => ?_
    obtain ⟨v, shapes, hv, hout⟩ := hv
    exact ⟨v, ⟨shapes, hv⟩, hout⟩
  refine (output_yields htree hr).imp fun out d' hx => ?_
  obtain ⟨x, ⟨shapes, hv⟩, hout⟩ := hx
  exact ⟨x, valueAt_eq_ok.2 ⟨shapes, hv⟩, hout⟩

/-- What the output of a draft holds is the value of its tape on a tabulated row. -/
theorem value_of_holds {data : Dataset α} {target : String} {rows : List Nat} {p y : List α}
    {out : Nat} {d : Draft α} {x : DesignMatrix α} {rescaled : Bool}
    (hx : data.tabulate d.inputs target rows = .ok (x, y)) {i : Nat} (hi : i < rows.length) {v : α}
    (hv : Holds ⟨p, data, rows[i]⟩ d out v) (w : Workspace α) :
    ((⟨⟨d.entries, some out⟩, d.parameters, d.inputs, rescaled⟩ : CompiledTree α).rowModel.value p
      (x.row i) w).1 = v := by
  rw [← hv.2 (x.row i) fun c r hc => Dataset.row_of_tabulate hx hi hc]
  change (Tape.forward ⟨d.entries, some out⟩ p (x.row i) w.values).getD out 0 = _
  rw [Tape.forward_eq_pass]
  rfl

/-- The fitted tape is the tree: on the inputs of any of the rows and for any parameters, it gives
the rescaled value of the tree that the parameters are written into. -/
theorem compile_value_eq (t : Tree α) (hb : t.LeavesBare) (hd : t.DistinctCategories)
    (data : Dataset α) (target : String) (rows : List Nat) (hrows : ∀ row ∈ rows, row < UInt64.size)
    (o : FitOptions) {values y p : List α} {trace : Option Trace} {c : CompiledTree α}
    {x : DesignMatrix α} (hvalues : t.values data rows = .ok values)
    (htrace : t.neededTrace data rows = .ok trace) (hc : t.compile o trace = .ok c)
    (hx : data.tabulate c.inputs target rows = .ok (x, y)) (hp : p.length = c.parameterCount) :
    ∃ t' r, t.withParameters o p = .ok (t', p.length) ∧
      (if o.rescale then Rescaling.ofParameters? p else some ⟨1, 0⟩) = some r ∧
      ∀ i (hi : i < rows.length), ∃ v, t'.valueAt data rows[i] = .ok v ∧
        ∀ w, (c.rowModel.value p (x.row i) w).1 = r.factor * v + r.offset := by
  have hn : p.length = o.offset + t.tunableCount o := hp.trans (parameterCount_of_compile hb hc)
  have hr : ∃ r, (if o.rescale then Rescaling.ofParameters? p else some ⟨1, 0⟩) = some r := by
    split_ifs with ho
    · rw [FitOptions.offset, if_pos ho] at hn
      rcases p with _ | ⟨b, _ | ⟨a, ps⟩⟩
      · simp at hn
        omega
      · simp at hn
        omega
      · exact ⟨_, rfl⟩
    · exact ⟨_, rfl⟩
  obtain ⟨r, hr⟩ := hr
  obtain ⟨out, d, hout, rfl⟩ := compile_ok.1 hc
  refine ⟨_, r, withParameters_eq o hn, hr, fun i hi => ?_⟩
  have hmem : rows[i] ∈ rows := List.getElem_mem hi
  obtain ⟨-, v, hv, hvalue⟩ := compileOutput_yields (e := ⟨p, data, rows[i]⟩)
    (hrows _ hmem) hb hd (leavesRead_of_neededTrace hb hvalues htrace hmem) hn hr out d hout
  exact ⟨v, hv, value_of_holds hx hi hvalue⟩

end Tree

section Linear

/-- The tree `c + g + sum v`, where `g` weighs the categories `a` and `b` and `v` is a vector. -/
noncomputable def linearTree (c a b : ℝ) : Tree ℝ :=
  .node .program [.node (.fold .add) [
    .node (.constant c) [],
    .node (.factor "g" [("a", a), ("b", b)]) [],
    .node (.aggregate .sum) [.node (.column "v" 1 0 none) []]]]

noncomputable def linearData (v : Array (List ℝ)) (y : Array ℝ) : Dataset ℝ where
  rows := some 2
  columns := [("g", .labels #["a", "c"]), ("v", .vectors v), ("y", .numbers y)]

def linearTrace : Trace := ⟨[.scalar, .scalar, .scalar, .scalar, .scalar, .vector 2]⟩

noncomputable def linearCompiled (c a b : ℝ) : CompiledTree ℝ where
  tape := {
    entries := #[.param 0, .param 1, .param 2,
      .param 3, .input 0, .binary .mul 4 3, .param 4, .input 1, .binary .mul 7 6, .sum [5, 8],
      .param 5, .input 2, .binary .mul 11 10, .input 3, .binary .mul 13 10, .sum [12, 14],
      .binary .add 2 9, .binary .add 16 15, .binary .mul 1 17, .binary .add 18 0]
    output := some 19 }
  parameters := [⟨0, .offset, 0⟩, ⟨0, .factor, 1⟩, ⟨2, .constant, c⟩,
    ⟨3, .categoryWeight "a", a⟩, ⟨3, .categoryWeight "b", b⟩, ⟨5, .columnWeight, 1⟩]
  inputs := [⟨"g", some "a", 0, none⟩, ⟨"g", some "b", 0, none⟩,
    ⟨"v", none, 0, some 0⟩, ⟨"v", none, 0, some 1⟩]
  rescaled := true

theorem compile_value_eq_linear : ∃ t' x y,
    (linearTree 3 4 5).withParameters { rescale := true } [10, 2, 6, 7, 8, 9] = .ok (t', 6) ∧
      (linearData #[[1, 2], [3, 4]] #[5, 6]).tabulate (linearCompiled 3 4 5).inputs "y" [1, 0] =
        .ok (x, y) ∧
      ∀ i (hi : i < 2), ∃ v,
        t'.valueAt (linearData #[[1, 2], [3, 4]] #[5, 6]) ([1, 0][i]) = .ok v ∧
        ∀ w, ((linearCompiled 3 4 5).rowModel.value [10, 2, 6, 7, 8, 9] (x.row i) w).1 =
          2 * v + 10 := by
  have hb : (linearTree 3 4 5).LeavesBare := by
    simp [linearTree, Tree.leavesBare_node, Symbol.isLeaf]
  have hd : (linearTree 3 4 5).DistinctCategories := by
    simp [linearTree, Tree.distinctCategories_node, Symbol.DistinctCategories]
  have hv : ((linearTree 3 4 5).values (linearData #[[1, 2], [3, 4]] #[5, 6]) [1, 0]).isOk =
      true := by cbv
  have ht : (linearTree 3 4 5).neededTrace (linearData #[[1, 2], [3, 4]] #[5, 6]) [1, 0] =
      .ok (some linearTrace) := by cbv
  have hc : (linearTree 3 4 5).compile { rescale := true } (some linearTrace) =
      .ok (linearCompiled 3 4 5) := by cbv
  have hx : ((linearData #[[1, 2], [3, 4]] #[5, 6]).tabulate (linearCompiled 3 4 5).inputs "y"
      [1, 0]).isOk = true := by cbv
  cases hv' : (linearTree 3 4 5).values (linearData #[[1, 2], [3, 4]] #[5, 6]) [1, 0] with
  | error e => rw [hv'] at hv; cases hv
  | ok values =>
    cases hx' : (linearData #[[1, 2], [3, 4]] #[5, 6]).tabulate (linearCompiled 3 4 5).inputs "y"
      [1, 0] with
    | error e => rw [hx'] at hx; cases hx
    | ok xy =>
      obtain ⟨t', r, hw, hr, hvalue⟩ := Tree.compile_value_eq (linearTree 3 4 5) hb hd _ "y" [1, 0]
        (by decide) { rescale := true } hv' ht hc hx' (p := [10, 2, 6, 7, 8, 9]) rfl
      cases hr
      exact ⟨t', xy.1, xy.2, hw, rfl, hvalue⟩

end Linear

end SymbolicFit
