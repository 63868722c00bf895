import Mathlib
import SymbolicFit.Proofs.CompiledShapes
import SymbolicFit.Proofs.CompiledValues

/-!
Factor leaves. Compiled, a factor adds all the weights that are listed for the label of a row;
evaluated, it is the first of them. The two agree where the others cancel, as they do when no
category is listed twice.
-/

namespace SymbolicFit

variable {α : Type} {o : FitOptions} {trace : Option Trace}

theorem Dataset.lt_of_label {d : Dataset α} {name label : String} {row : Nat}
    (h : d.label name row = .ok label) : row < d.rowCount := by
  obtain ⟨_, hcheck, -⟩ := bind_eq_ok.1 h
  unfold checkRow at hcheck
  split_ifs at hcheck with hlt
  exact hlt

namespace Tree

variable [ExactArithmetic α] {name : String} {ws : List (String × α)}

/-- The initial parameters do not rescale. -/
theorem ofParameters?_initial {t : Tree α} {c : CompiledTree α} (h : t.LeavesBare)
    (hc : t.compile o trace = .ok c) :
    (if o.rescale then Rescaling.ofParameters? c.initial else some ⟨1, 0⟩) =
      some (⟨1, 0⟩ : Rescaling α) := by
  rw [CompiledTree.initial, parameters_of_compile h hc, FitOptions.scaling]
  split_ifs
  · rfl
  · rfl

omit [ExactArithmetic α] in
theorem leavesBare_factor : (node (.factor name ws) []).LeavesBare :=
  leavesBare_node.2 ⟨fun _ => rfl, fun _ h => absurd h List.not_mem_nil⟩

omit [ExactArithmetic α] in
theorem tunable_factor :
    (node (.factor name ws) []).tunable o 0 = if o.tunesWeights 0 then ws.map (·.2) else [] :=
  List.append_nil _

/-- A factor leaf compiles where its labels can be read. -/
theorem factor_compile_ok {data : Dataset α} {rows : List Nat} (ws : List (String × α))
    (o : FitOptions) (trace : Option Trace)
    (hreads : ∀ category, data.Reads rows ⟨name, some category, 0, none⟩) :
    ∃ c, (node (.factor name ws) []).compile o trace = .ok c ∧
      ∀ r ∈ c.inputs, data.Reads rows r := by
  obtain ⟨x, hx⟩ := Symbol.compileLeaf?_of_isLeaf (s := .factor name ws) rfl o
    (Trace.shapeOf trace 0) 0
  have hcompiles : Drafting.Compiles (fun _ => False) (data.Reads rows)
      ((node (.factor name ws) []).compileOutput o trace) fun _ => True := by
    have hleaf := Symbol.factor_compiles (E := fun _ => False) hx hreads
    rw [← compileAt_leaf hx] at hleaf
    exact output_compiles hleaf fun n h => by cases h
  rcases hout : (node (.factor name ws) []).compileOutput o trace .empty with e | ⟨out, d⟩
  · exact (hcompiles.error hout).elim
  · exact ⟨_, compile_ok.2 ⟨out, d, hout, rfl⟩,
      fun r hr => ((hcompiles.ok hout).2 r hr).resolve_left List.not_mem_nil⟩

theorem factor_tabulates {data : Dataset α} (hd : data.Addressable) {rows : List Nat}
    (hrows : rows ≠ []) (hlabels : ∀ row ∈ rows, ∃ label, data.label name row = .ok label)
    {target : String} {y : List α} (hy : data.numbers target rows = .ok y)
    (ws : List (String × α)) (o : FitOptions) (trace : Option Trace) :
    ∃ c x, (node (.factor name ws) []).compile o trace = .ok c ∧
      data.tabulate c.inputs target rows = .ok (x, y) := by
  have hreads : ∀ category, data.Reads rows ⟨name, some category, 0, none⟩ := by
    refine Dataset.reads_category hd (f := pure) fun row hrow => ?_
    obtain ⟨label, hl⟩ := hlabels row hrow
    exact ⟨label, by rw [hl]; rfl⟩
  obtain ⟨c, hc, hinputs⟩ := factor_compile_ok ws o trace hreads
  obtain ⟨⟨x, y'⟩, hx, hy'⟩ := map_eq_ok.1
    ((Dataset.tabulate_of_reads hrows hinputs target).trans hy)
  obtain rfl : y' = y := hy'
  exact ⟨c, x, hc, hx⟩

/-- The interpreter takes the first weight that is listed for the label. -/
theorem factor_valueAt {data : Dataset α} {row : Nat} {label : String}
    (hl : data.label name row = .ok label) :
    (node (.factor name ws) []).valueAt data row =
      .ok ((Symbol.listed ws label).headD 0) := by
  have hleaf : (Symbol.factor name ws).leaf? data row 0 =
      some (.ok (.scalar ((Symbol.listed ws label).headD 0))) := by
    rw [Symbol.leaf?, hl, List.headD_eq_head?_getD, Symbol.head?_listed]
    rfl
  exact valueAt_eq_ok.2 ⟨_, evaluateAt_ok.2 (.inl ⟨hleaf, rfl⟩)⟩

/-- The compiled leaf adds all the weights that are listed for the label. -/
theorem factor_output_value {data : Dataset α} {rows : List Nat} {target : String}
    {c : CompiledTree α} {x : DesignMatrix α} {y : List α}
    (hc : (node (.factor name ws) []).compile o trace = .ok c)
    (hx : data.tabulate c.inputs target rows = .ok (x, y)) {i : Nat} (hi : i < rows.length)
    {label : String} (hl : data.label name rows[i] = .ok label) (hrow : rows[i] < UInt64.size)
    (w : Workspace α) :
    (c.rowModel.value c.initial (x.row i) w).1 = (Symbol.listed ws label).sum := by
  have hcount := parameterCount_of_compile leavesBare_factor hc
  have hinitial := initial_of_compile leavesBare_factor hc
  have hr := ofParameters?_initial leavesBare_factor hc
  obtain ⟨leaf, hleaf⟩ := Symbol.compileLeaf?_of_isLeaf (s := .factor name ws) rfl o
    (Trace.shapeOf trace 0) 0
  have htree : ∀ d : Draft α, d.parameters.length = o.offset →
      Drafting.Yields d ((node (.factor name ws) []).compileAt o trace 0) fun out d' => ∃ v,
        v = .scalar (Symbol.listed ws label).sum ∧
          out.Related (Draft.Holds ⟨c.initial, data, rows[i]⟩ d') v := by
    intro d hd
    rw [compileAt_leaf hleaf]
    refine (Symbol.factor_yields hleaf hl hrow fun ht => ?_).imp fun out d' hout => ⟨_, ?_, hout⟩
    · rw [CompiledTree.parameterCount, tunableCount, tunable_factor, if_pos ht,
        List.length_map] at hcount
      rw [hd, CompiledTree.initial, List.length_map, hcount]
    · -- the initial parameters put the weights back
      rw [hd, hinitial, tunable_factor]
      split_ifs
      · rw [← List.append_nil (ws.map _), Symbol.refill_self]
      · rfl
  obtain ⟨out, d, hout, rfl⟩ := compile_ok.1 hc
  obtain ⟨-, v, hv, hvalue⟩ := output_yields htree hr out d hout
  cases hv
  rw [one_mul, add_zero] at hvalue
  exact value_of_holds hx hi hvalue w

/-- On every row the compiled factor leaf has, at its initial parameters, the sum of the weights
under the indicators of their categories, so that of all weights listed for the label, and the
interpreter takes the first of them or zero. The two are the same exactly if the other weights
cancel, and there are no others where no category is listed twice. -/
theorem factor_values (name : String) (ws : List (String × α)) (data : Dataset α)
    (hd : data.Addressable) (rows : List Nat) (hrows : rows ≠ [])
    (hlabels : ∀ row ∈ rows, ∃ label, data.label name row = .ok label) (target : String)
    {y : List α} (hy : data.numbers target rows = .ok y) (o : FitOptions) (trace : Option Trace) :
    ∃ c x, (node (.factor name ws) []).compile o trace = .ok c ∧
      data.tabulate c.inputs target rows = .ok (x, y) ∧
      ∀ i (hi : i < rows.length) label, data.label name rows[i] = .ok label →
        (∀ w, (c.rowModel.value c.initial (x.row i) w).1 =
          (ws.map fun cw => cw.2 * if label = cw.1 then 1 else 0).sum) ∧
        (node (.factor name ws) []).valueAt data rows[i] =
          .ok ((Symbol.listed ws label).headD 0) ∧
        (ws.map fun cw => cw.2 * if label = cw.1 then 1 else 0).sum =
          (Symbol.listed ws label).sum ∧
        ((Symbol.listed ws label).sum = (Symbol.listed ws label).headD 0 ↔
          (Symbol.listed ws label).tail.sum = 0) ∧
        ((ws.map (·.1)).Nodup → (Symbol.listed ws label).tail = []) := by
  obtain ⟨c, x, hc, hx⟩ := factor_tabulates hd hrows hlabels hy ws o trace
  refine ⟨c, x, hc, hx, fun i hi label hl => ?_⟩
  have hrow : rows[i] < UInt64.size := by
    have := Dataset.lt_of_label hl
    unfold Dataset.Addressable at hd
    omega
  have hsum : (Symbol.listed ws label).sum =
      (Symbol.listed ws label).headD 0 + (Symbol.listed ws label).tail.sum := by
    cases Symbol.listed ws label with
    | nil => simp
    | cons v vs => rfl
  refine ⟨fun w => ?_, factor_valueAt hl, Symbol.sum_listed label ws, ?_,
    fun hn => Symbol.tail_listed hn label⟩
  · rw [factor_output_value hc hx hi hl hrow, Symbol.sum_listed]
  · rw [hsum, add_eq_left]

end Tree

section Repeated

/-- A factor leaf that weighs the category `a` twice. -/
noncomputable def repeatedLeaf (v w : ℝ) : Tree ℝ := .node (.factor "g" [("a", v), ("a", w)]) []

theorem linearData_labels : ∀ row ∈ [0, 1], ∃ label,
    (linearData #[[1, 2], [3, 4]] #[5, 6]).label "g" row = .ok label := by
  intro row hrow
  rcases List.mem_pair.1 hrow with rfl | rfl
  · exact ⟨"a", rfl⟩
  · exact ⟨"c", rfl⟩

theorem linearData_addressable : (linearData #[[1, 2], [3, 4]] #[5, 6]).Addressable := by
  unfold Dataset.Addressable
  decide

theorem factor_values_linear : ∃ c x,
    (repeatedLeaf 2 0).compile { rescale := true } none = .ok c ∧
    (linearData #[[1, 2], [3, 4]] #[5, 6]).tabulate c.inputs "y" [0, 1] = .ok (x, [5, 6]) ∧
    (∀ w, (c.rowModel.value c.initial (x.row 0) w).1 = 2) ∧
    (repeatedLeaf 2 0).valueAt (linearData #[[1, 2], [3, 4]] #[5, 6]) 0 = .ok 2 := by
  obtain ⟨c, x, hc, hx, hrows⟩ := Tree.factor_values "g" [("a", (2 : ℝ)), ("a", 0)] _
    linearData_addressable [0, 1] (by decide) linearData_labels "y" rfl { rescale := true } none
  obtain ⟨hcompiled, hevaluated, -⟩ := hrows 0 (by decide) "a" rfl
  refine ⟨c, x, hc, hx, fun w => (hcompiled w).trans ?_, hevaluated⟩
  simp

/-- The two weights of `a` are added when the leaf is compiled, and the first alone is taken when
it is evaluated. -/
theorem factor_repeated : ∃ c x y,
    (repeatedLeaf 2 3).compile {} none = .ok c ∧
    (linearData #[[1, 2], [3, 4]] #[5, 6]).tabulate c.inputs "y" [0, 1] = .ok (x, y) ∧
    (∀ w, (c.rowModel.value c.initial (x.row 0) w).1 = 2 + 3) ∧
    (repeatedLeaf 2 3).valueAt (linearData #[[1, 2], [3, 4]] #[5, 6]) 0 = .ok 2 ∧
    (2 : ℝ) + 3 ≠ 2 := by
  have hy : (linearData #[[1, 2], [3, 4]] #[5, 6]).numbers "y" [0, 1] = .ok [5, 6] := rfl
  have hl : (linearData #[[1, 2], [3, 4]] #[5, 6]).label "g" [0, 1][0] = .ok "a" := rfl
  have hsum : (Symbol.listed [("a", (2 : ℝ)), ("a", 3)] "a").sum = 2 + 3 := by
    simp [Symbol.listed]
  obtain ⟨c, x, hc, hx⟩ := Tree.factor_tabulates linearData_addressable (by decide)
    linearData_labels hy [("a", 2), ("a", 3)] {} none
  refine ⟨c, x, _, hc, hx, fun w => ?_, Tree.factor_valueAt hl, by norm_num⟩
  exact (Tree.factor_output_value hc hx (by decide) hl (by decide) w).trans hsum

end Repeated

end SymbolicFit
