import Mathlib
import SymbolicFit.Proofs.CompiledValues
import SymbolicFit.Proofs.FitFailures
import SymbolicFit.Proofs.FittedRows
import SymbolicFit.Proofs.LinearRuns
import SymbolicFit.Proofs.Reflections
import SymbolicFit.Proofs.RetunedTrees

/-!
What tuning does to a tree. The fitted model is the tree, so a fit that lowers the cost of the model
brings the rescaled tree closer to the target. A model whose residuals are affine in its parameters
is lowered by its first iteration, unless it starts at a minimum.
-/

namespace SymbolicFit

section Scalars

variable {α : Type} [Scalar α] {t : Tree α} {solver : LinearSolver α} {d : Dataset α}
  {target : String} {rows : List Nat} {s : TuningSettings} {cancelled : Bool} {r : TunedTree α}

namespace Tree

/-- The stages of a successful tuning. -/
structure Stages (t : Tree α) (solver : LinearSolver α) (d : Dataset α) (target : String)
    (rows : List Nat) (s : TuningSettings) (cancelled : Bool) (r : TunedTree α)
    (trace : Option Trace) (c : CompiledTree α) (x : DesignMatrix α) (y : List α) : Prop where
  traced : t.neededTrace d rows = .ok trace
  compiled : t.compile s.fitOptions trace = .ok c
  tabulated : d.tabulate c.inputs target rows = .ok (x, y)
  fitted : (c.rowModel.fit solver x y c.initial s.budget s.verify (fun _ => cancelled) .empty).1 =
    .ok (.fitted r.params r.passes)
  length : r.params.length = s.fitOptions.offset + t.tunableCount s.fitOptions
  written : r.tree = (t.assign s.fitOptions 0 (r.params.drop s.fitOptions.offset)).1
  rescaling : r.rescaling = if s.rescale then Rescaling.ofParameters? r.params else none

theorem stages_of_tune (h : t.tune solver d target rows s cancelled = .ok r) :
    ∃ trace c x y, t.Stages solver d target rows s cancelled r trace c x y := by
  unfold tune at h
  obtain ⟨trace, htrace, h⟩ := bind_eq_ok.1 h
  obtain ⟨c, hc, h⟩ := bind_eq_ok.1 h
  by_cases hfixed : c.isFixed = true
  · rw [if_pos hfixed] at h
    cases h
  rw [if_neg hfixed] at h
  obtain ⟨⟨x, y⟩, hx, h⟩ := bind_eq_ok.1 h
  obtain ⟨outcome, hfit, h⟩ := bind_eq_ok.1 h
  cases outcome with
  | failed reason => cases h
  | fitted params passes =>
    obtain ⟨⟨t', n⟩, hw, h⟩ := bind_eq_ok.1 h
    cases h
    unfold withParameters at hw
    dsimp only at hw
    split_ifs at hw with hp
    cases hw
    exact ⟨trace, c, x, y, htrace, hc, hx, hfit, hp, rfl, rfl⟩

/-- Putting the initial parameters back changes nothing. -/
theorem assign_initial {o : FitOptions} {trace : Option Trace} {c : CompiledTree α}
    (hb : t.LeavesBare) (hc : t.compile o trace = .ok c) :
    (t.assign o 0 (c.initial.drop o.offset)).1 = t := by
  have h := assign_tunable o t 0 []
  rw [List.append_nil] at h
  rw [initial_of_compile hb hc, h]

theorem ofParameters_initial {o : FitOptions} {trace : Option Trace} {c : CompiledTree α}
    (hb : t.LeavesBare) (hc : t.compile o trace = .ok c) (ho : o.rescale = true) :
    Rescaling.ofParameters? c.initial = some ⟨1, 0⟩ := by
  rw [CompiledTree.initial, parameters_of_compile hb hc, FitOptions.scaling, if_pos ho]
  rfl

/-- Without iterations the tree stays as it is. -/
theorem tune_of_budget_zero (hb : t.LeavesBare) (hs : s.budget = 0)
    (h : t.tune solver d target rows s cancelled = .ok r) :
    r.tree = t ∧ (r.rescaling = none ∨ r.rescaling = some ⟨1, 0⟩) := by
  obtain ⟨trace, c, x, y, h⟩ := stages_of_tune h
  have hp : r.params = c.initial := RowModel.params_of_fit_zero hs h.fitted
  refine ⟨by rw [h.written, hp, assign_initial hb h.compiled], ?_⟩
  rw [h.rescaling]
  split_ifs with ho
  · rw [hp, ofParameters_initial hb h.compiled ho]
    exact .inr rfl
  · exact .inl rfl

/-- A tuning whose fit returns parameters returns the tree with them. -/
theorem tune_of_fit {trace : Option Trace} {c : CompiledTree α} {x : DesignMatrix α} {y : List α}
    {params : List α} {passes : PassCounts} (htrace : t.neededTrace d rows = .ok trace)
    (hc : t.compile s.fitOptions trace = .ok c) (hfixed : c.isFixed = false)
    (hx : d.tabulate c.inputs target rows = .ok (x, y))
    (hfit : (c.rowModel.fit solver x y c.initial s.budget s.verify (fun _ => cancelled) .empty).1 =
      .ok (.fitted params passes))
    (hl : params.length = s.fitOptions.offset + t.tunableCount s.fitOptions) :
    t.tune solver d target rows s cancelled =
      .ok ⟨(t.assign s.fitOptions 0 (params.drop s.fitOptions.offset)).1, params,
        if s.rescale then Rescaling.ofParameters? params else none, passes⟩ := by
  unfold tune
  rw [htrace]
  dsimp only [bind, Except.bind]
  rw [hc]
  dsimp only
  rw [hfixed, if_neg Bool.false_ne_true, hx]
  dsimp only
  rw [hfit]
  dsimp only
  rw [withParameters_eq _ hl]
  rfl

theorem tune_retuned (h : t.tune solver d target rows s cancelled = .ok r) :
    t.Retuned s.fitOptions r.tree := by
  obtain ⟨trace, c, x, y, h⟩ := stages_of_tune h
  rw [h.written]
  exact assign_retuned _ t _

end Tree

omit [Scalar α] in
theorem Rescaling.exists_ofParameters? {p : List α} (h : 2 ≤ p.length) :
    ∃ r, Rescaling.ofParameters? p = some r := by
  rcases p with _ | ⟨b, _ | ⟨a, ps⟩⟩
  · cases h
  · exact absurd h (by simp)
  · exact ⟨⟨a, b⟩, rfl⟩

def Rescaling.apply (r : Rescaling α) (x : α) : α := r.factor * x + r.offset

/-- The rescaling of a tuning is the one of its parameters. -/
theorem Tree.Stages.ofParameters? {trace : Option Trace} {c : CompiledTree α} {x : DesignMatrix α}
    {y : List α} (h : t.Stages solver d target rows s cancelled r trace c x y) :
    (if s.fitOptions.rescale then Rescaling.ofParameters? r.params else some ⟨1, 0⟩) =
      some (r.rescaling.getD ⟨1, 0⟩) := by
  rw [h.rescaling]
  change (if s.rescale then _ else _) = _
  split_ifs with ho
  · have hl : s.fitOptions.offset = 2 := if_pos ho
    obtain ⟨r', hr'⟩ := Rescaling.exists_ofParameters? (by rw [h.length, hl]; omega)
    rw [hr']
    rfl
  · rfl

end Scalars

section Exact

variable {α : Type} [ExactArithmetic α] {t : Tree α} {d : Dataset α} {target : String}
  {rows : List Nat} {o : FitOptions} {trace : Option Trace} {c : CompiledTree α}
  {x : DesignMatrix α} {y vs p : List α} {r : Rescaling α}

theorem Rescaling.map_apply_one (vs : List α) : vs.map (apply ⟨1, 0⟩) = vs := by
  conv_rhs => rw [← List.map_id vs]
  exact List.map_congr_left fun v _ => by rw [apply, one_mul, add_zero, id]

namespace Tree

/-- On each row, the tape gives the value of the tree with its parameters, rescaled. -/
theorem value_of_compile (hb : t.LeavesBare) (hd : t.DistinctCategories)
    (hrows : ∀ row ∈ rows, row < UInt64.size) (hvs : t.values d rows = .ok vs)
    (htrace : t.neededTrace d rows = .ok trace) (hc : t.compile o trace = .ok c)
    (hx : d.tabulate c.inputs target rows = .ok (x, y))
    (hn : p.length = o.offset + t.tunableCount o)
    (hr : (if o.rescale then Rescaling.ofParameters? p else some ⟨1, 0⟩) = some r) {i : Nat}
    (hi : i < rows.length) :
    ∃ v, (t.assign o 0 (p.drop o.offset)).1.valueAt d rows[i] = .ok v ∧
      (c.tape.evaluate p (x.row i) .empty).1 = r.apply v := by
  obtain ⟨out, d', hout, rfl⟩ := compile_ok.1 hc
  have hmem : rows[i] ∈ rows := List.getElem_mem hi
  obtain ⟨-, v, hv, -, hvalue⟩ := compileOutput_yields (e := ⟨p, d, rows[i]⟩)
    (hrows _ hmem) hb hd (leavesRead_of_neededTrace hb hvs htrace hmem) hn hr out d' hout
  refine ⟨v, hv, ?_⟩
  rw [Rescaling.apply, ← hvalue (x.row i) fun c r hc => Dataset.row_of_tabulate hx hi hc]
  change (Tape.forward ⟨d'.entries, some out⟩ p (x.row i) .empty).getD out 0 = _
  rw [Tape.forward_eq_pass]
  rfl

/-- The residuals of the fitted model are those of the rescaled tree with its parameters. -/
theorem residuals_of_compile (hb : t.LeavesBare) (hd : t.DistinctCategories)
    (hrows : ∀ row ∈ rows, row < UInt64.size) (hvs : t.values d rows = .ok vs)
    (htrace : t.neededTrace d rows = .ok trace) (hc : t.compile o trace = .ok c)
    (hx : d.tabulate c.inputs target rows = .ok (x, y))
    (hn : p.length = o.offset + t.tunableCount o)
    (hr : (if o.rescale then Rescaling.ofParameters? p else some ⟨1, 0⟩) = some r) :
    ∃ ws, (t.assign o 0 (p.drop o.offset)).1.values d rows = .ok ws ∧
      RowModel.residualsOf (fun params inputs => (c.tape.evaluate params inputs .empty).1) x y p =
        List.zipWith (· - ·) (ws.map r.apply) y := by
  have hvalue := fun i => value_of_compile (i := i) hb hd hrows hvs htrace hc hx hn hr
  have hok : ∀ row ∈ rows, ∃ v, (t.assign o 0 (p.drop o.offset)).1.valueAt d row = .ok v := by
    intro row hrow
    obtain ⟨i, hi, rfl⟩ := List.getElem_of_mem hrow
    obtain ⟨v, hv, -⟩ := hvalue i hi
    exact ⟨v, hv⟩
  obtain ⟨ws, hws⟩ := exists_mapM_ok hok
  refine ⟨ws, hws, ?_⟩
  have hf := forall₂_of_mapM hws
  have hy := (Dataset.tabulates_of_ok hx).length_eq
  refine List.ext_getElem (by simp [RowModel.residualsOf, hy, hf.length_eq]) fun i hi _ => ?_
  have hi' : i < rows.length := by simpa [RowModel.residualsOf, hy] using hi
  obtain ⟨v, hv, he⟩ := hvalue i hi'
  have hi'' : i < ws.length := hf.length_eq ▸ hi'
  have hw : ws[i] = v := Except.ok.inj ((hf.get hi' hi'').symm.trans hv)
  simp [RowModel.residualsOf, he, hw]

end Tree

end Exact

section Ordered

variable {α : Type} [OrderedArithmetic α]

/-- The sum of the squared differences. -/
def squaredError (estimated observed : List α) : α :=
  (List.zipWith (fun e o => (e - o) ^ 2) estimated observed).sum

theorem costOf_add_costOf (rs : List α) :
    LeastSquares.costOf rs + LeastSquares.costOf rs = (rs.map fun x => x ^ 2).sum := by
  rw [LeastSquares.costOf, ExactRing.sum_eq, ← add_mul, OrderedArithmetic.half_add_half, one_mul]
  simp only [sq]

theorem squaredError_eq (es os : List α) :
    squaredError es os = LeastSquares.costOf (List.zipWith (· - ·) es os) +
      LeastSquares.costOf (List.zipWith (· - ·) es os) := by
  rw [costOf_add_costOf, List.map_zipWith]
  rfl

/-- The rescaled result is at least as close to the target as the given tree. -/
theorem Tree.tune_descends {t : Tree α} {solver : LinearSolver α} {d : Dataset α}
    {target : String} {rows : List Nat} {s : TuningSettings} {cancelled : Bool} {r : TunedTree α}
    {vs : List α} (hb : t.LeavesBare) (hd : t.DistinctCategories)
    (hrows : ∀ row ∈ rows, row < UInt64.size) (hvs : t.values d rows = .ok vs)
    (h : t.tune solver d target rows s cancelled = .ok r) :
    ∃ ws ys, r.tree.values d rows = .ok ws ∧ d.numbers target rows = .ok ys ∧
      squaredError (ws.map (r.rescaling.getD ⟨1, 0⟩).apply) ys ≤ squaredError vs ys := by
  obtain ⟨trace, c, x, y, h⟩ := stages_of_tune h
  have hr₀ : (if s.fitOptions.rescale then Rescaling.ofParameters? c.initial
      else some ⟨1, 0⟩) = some ⟨1, 0⟩ := by
    split_ifs with ho
    · exact ofParameters_initial hb h.compiled ho
    · rfl
  have hl₀ : c.initial.length = s.fitOptions.offset + t.tunableCount s.fitOptions :=
    (List.length_map _).trans (parameterCount_of_compile hb h.compiled)
  -- the residuals at the fitted parameters belong to the result, the first ones to the given tree
  obtain ⟨ws, hws, hres⟩ := residuals_of_compile hb hd hrows hvs h.traced h.compiled h.tabulated
    h.length h.ofParameters?
  obtain ⟨vs', hvs', hres₀⟩ := residuals_of_compile hb hd hrows hvs h.traced h.compiled h.tabulated
    hl₀ hr₀
  rw [← h.written] at hws
  rw [assign_initial hb h.compiled, hvs] at hvs'
  obtain rfl := Except.ok.inj hvs'
  rw [Rescaling.map_apply_one] at hres₀
  refine ⟨ws, y, hws, (Dataset.tabulates_of_ok h.tabulated).targets, ?_⟩
  rw [squaredError_eq, squaredError_eq, ← hres, ← hres₀]
  rcases RowModel.descends_of_fit c.rowModel_computes h.fitted with hp | hlt
  · rw [hp]
  · exact add_le_add hlt.le hlt.le

end Ordered

/-- Tuning changes nothing but the numbers of tunable leaves, and nothing at all without iterations.
In exact arithmetic the rescaled result is at least as close to the target, in squares, as the given
tree. -/
theorem Tree.tune_improves :
    (∀ {α : Type} [Scalar α] (t : Tree α) (solver : LinearSolver α) (d : Dataset α)
      (target : String) (rows : List Nat) (s : TuningSettings) (cancelled : Bool)
      (r : TunedTree α),
      t.LeavesBare → t.tune solver d target rows s cancelled = .ok r →
        t.Retuned s.fitOptions r.tree ∧
        (s.budget = 0 → r.tree = t ∧ (r.rescaling = none ∨ r.rescaling = some ⟨1, 0⟩))) ∧
    ∀ {α : Type} [OrderedArithmetic α] (t : Tree α) (solver : LinearSolver α) (d : Dataset α)
      (target : String) (rows : List Nat) (s : TuningSettings) (cancelled : Bool)
      (r : TunedTree α) (vs : List α),
      t.LeavesBare → t.DistinctCategories → (∀ row ∈ rows, row < UInt64.size) →
      t.values d rows = .ok vs → t.tune solver d target rows s cancelled = .ok r →
        ∃ ws ys, r.tree.values d rows = .ok ws ∧ d.numbers target rows = .ok ys ∧
          squaredError (ws.map (r.rescaling.getD ⟨1, 0⟩).apply) ys ≤ squaredError vs ys :=
  ⟨fun _ _ _ _ _ _ _ _ hb h => ⟨tune_retuned h, fun hs => tune_of_budget_zero hb hs h⟩,
    fun _ _ _ _ _ _ _ _ _ hb hd hrows hvs h => tune_descends hb hd hrows hvs h⟩

section Affine

open Fitting LeastSquares

variable {σ : Type} {model : RowModel σ ℝ} {f : List ℝ → List ℝ → ℝ}
  {g : List ℝ → List ℝ → ℝ × List ℝ} {l : LinearProblem} {solver : LinearSolver ℝ}
  {x : DesignMatrix ℝ} {y initial : List ℝ} {s : σ}

namespace RowModel

theorem gives_stopIfCancelled : Gives (stopIfCancelled fun _ : σ => false) () := fun _ => rfl

theorem gives_modify (tally : σ × Tally → σ × Tally) :
    Gives (modify tally : Fitting (σ × Tally) Unit) () := fun _ => rfl

theorem gives_onRow {β : Type} {x : StateM σ β} {b : β} (h : ∀ s, (x s).1 = b) :
    Gives (onRow x) b := fun s => congrArg Except.ok (h s.1)

/-- A model whose residuals are affine in its parameters is fitted as a linear problem. -/
theorem describes_problem (hm : model.Computes f g) (hn : model.parameterCount = l.parameterCount)
    (hresiduals : ∀ c, c.length = l.parameterCount → residualsOf f x y c = l.residuals c)
    (hjacobian : ∀ c, c.length = l.parameterCount → jacobianOf g x y c = l.jacobian) :
    l.Describes (model.problem x y fun _ => false) where
  parameterCount := hn
  residuals c hc := by
    rw [← hresiduals c hc]
    refine gives_stopIfCancelled.bind ((Gives.mapM (g := fun p => f c (x.row p.2) - p.1)
      (fun p => ?_) _).bind ((gives_modify _).bind (.pure _)))
    exact (gives_onRow (hm.value c (x.row p.2))).bind (.pure _)
  jacobian c hc := by
    rw [← hjacobian c hc]
    refine gives_stopIfCancelled.bind ((Gives.mapM (g := fun i => (g c (x.row i)).2)
      (fun i => ?_) _).bind ((gives_modify _).bind (.pure _)))
    exact (gives_onRow (hm.differentiate c (x.row i))).bind (.pure _)

/-- One iteration from parameters that are not stationary lowers the cost. -/
theorem exists_fit_lt (hl : l.Describes (model.problem x y fun _ => false))
    (hproducts : solver.ExactProducts) (hsolver : solver.Exact)
    (hc : model.check x y initial = .ok ()) (hg : l.gradient initial ≠ 0) :
    ∃ params passes, (model.fit solver x y initial 1 false (fun _ => false) s).1 =
        .ok (.fitted params passes) ∧
      params.length = l.parameterCount ∧ l.cost params < l.cost initial := by
  obtain ⟨hn, hi⟩ := check_ok hc
  have hcount : model.parameterCount = l.parameterCount := hl.parameterCount
  have hdamping : (0 : ℝ) < 1e-3 := by norm_num
  have hstart : l.Tracks 1e-3 (.start initial (l.residuals initial) 1e-3) :=
    LinearProblem.tracks_start (hi.trans hcount) _
  have hnext := hstart.iterate_advance hsolver hdamping 1
  have hlt := hstart.evaluated.cost_accept_lt hsolver hdamping hg
  have hiterate : Gives ((model.problem x y fun _ => false).iterate solver 0 1
      (.start initial (l.residuals initial) 1e-3)) _ :=
    hstart.gives_iterate_exhausted hl hproducts hsolver hdamping fun j hj => by
      obtain rfl := Nat.lt_one_iff.1 hj
      exact hg
  have hsettings : ({ budget := 1 } : Settings ℝ).verify = false := rfl
  have hrun := hl.gives_solve one_ne_zero rfl hsettings (hcount ▸ hn) (hi.trans hcount) hiterate
    (s, {})
  rcases hsolve : (model.problem x y fun _ => false).solve solver { budget := 1 } initial (s, {})
    with ⟨result, s', tally⟩
  rw [hsolve] at hrun
  obtain rfl : result = .ok _ := hrun
  rw [fit_started hc rfl hsolve]
  exact ⟨_, _, rfl, hnext.length, hnext.cost ▸ hlt⟩

end RowModel

end Affine

section Line

theorem lineTree_leavesBare {α : Type} (w c : α) : (lineTree w c).LeavesBare := by
  simp [lineTree, Tree.leavesBare_node, Symbol.isLeaf]

theorem lineTree_values (w c x₀ x₁ y₀ y₁ : ℝ) :
    (lineTree w c).values (lineData x₀ x₁ y₀ y₁) [0, 1] = .ok [w * x₀ + c, w * x₁ + c] := by cbv

/-- The line with its constant for the only parameter. -/
def levelCompiled {α : Type} (w c : α) : CompiledTree α where
  tape := {
    entries := #[.literal w, .input 0, .binary .mul 1 0, .param 0, .binary .add 2 3]
    output := some 4 }
  parameters := [⟨2, .constant, c⟩]
  inputs := [⟨"x", none, 0, none⟩]
  rescaled := false

theorem levelCompiled_value {α : Type} [Scalar α] (w c x p : α) :
    ((levelCompiled w c).tape.evaluate [p] [x] .empty).1 = x * w + p := by cbv

theorem levelCompiled_gradient (w c x p : ℝ) :
    ((levelCompiled w c).rowModel.differentiate [p] [x] .empty).1.2 = [1] := by
  simp [levelCompiled, CompiledTree.rowModel, CompiledTree.parameterCount, Tape.differentiate,
    Tape.forward, Tape.size, Tape.backward, Tape.propagate, Tape.entryValue, Scratch.fill,
    Scratch.modify, Scratch.getD, BinaryOp.partials, Array.getElem_modify]

/-- The level of the line is fitted as a linear problem. -/
noncomputable def level (w x₀ x₁ y₀ y₁ : ℝ) : LeastSquares.LinearProblem where
  parameterCount := 1
  jacobian := [[1], [1]]
  offset := [x₀ * w - y₀, x₁ * w - y₁]
  row_length := by simp
  offset_length := rfl

theorem level_residuals (w x₀ x₁ y₀ y₁ p : ℝ) : (level w x₀ x₁ y₀ y₁).residuals [p] =
    [x₀ * w + p - y₀, x₁ * w + p - y₁] := by
  simp only [level, LeastSquares.LinearProblem.residuals, List.zipWith_cons_cons,
    List.zipWith_nil_left, Scalar.dot, ExactRing.sum_eq, List.sum_cons, List.sum_nil]
  ring_nf

theorem level_gradient (w x₀ x₁ y₀ y₁ p : ℝ) : (level w x₀ x₁ y₀ y₁).gradient [p] =
    fun _ => x₀ * w + p - y₀ + (x₁ * w + p - y₁) := by
  have hmatrix : (level w x₀ x₁ y₀ y₁).matrix = fun _ _ => 1 := by
    ext i j
    fin_cases i <;> fin_cases j <;> rfl
  funext i
  rw [LeastSquares.LinearProblem.gradient, level_residuals, hmatrix]
  change ∑ k : Fin 2, 1 * toVector 2 [x₀ * w + p - y₀, x₁ * w + p - y₁] k = _
  rw [Fin.sum_univ_two, one_mul, one_mul]
  rfl

theorem level_describes (w c x₀ x₁ y₀ y₁ : ℝ) : (level w x₀ x₁ y₀ y₁).Describes
    ((levelCompiled w c).rowModel.problem ⟨#[x₀, x₁], 2, 1⟩ [y₀, y₁] fun _ => false) := by
  have hrow₀ : (⟨#[x₀, x₁], 2, 1⟩ : DesignMatrix ℝ).row 0 = [x₀] := by cbv
  have hrow₁ : (⟨#[x₀, x₁], 2, 1⟩ : DesignMatrix ℝ).row 1 = [x₁] := by cbv
  refine RowModel.describes_problem (levelCompiled w c).rowModel_computes rfl ?_ ?_
  · intro ps hps
    obtain ⟨p, rfl⟩ := List.length_eq_one_iff.1 hps
    simp [RowModel.residualsOf, hrow₀, hrow₁, levelCompiled_value, level_residuals]
  · intro ps hps
    obtain ⟨p, rfl⟩ := List.length_eq_one_iff.1 hps
    simp [RowModel.jacobianOf, List.range_succ, hrow₀, hrow₁, levelCompiled_gradient, level]

/-- Tuning the constant of a line that is off on the whole moves it. -/
theorem exists_tune_level {w c x₀ x₁ y₀ y₁ : ℝ} (h : x₀ * w + c - y₀ + (x₁ * w + c - y₁) ≠ 0) :
    ∃ r p, (lineTree w c).tune .orthogonal (lineData x₀ x₁ y₀ y₁) "y" [0, 1]
        { budget := 1, weights := false, rescale := false } false = .ok r ∧
      r.tree = lineTree w p ∧ p ≠ c := by
  have htrace : (lineTree w c).neededTrace (lineData x₀ x₁ y₀ y₁) [0, 1] = .ok none := by cbv
  have hc : (lineTree w c).compile { weights := false, rescale := false } none =
      .ok (levelCompiled w c) := by cbv
  have hx : (lineData x₀ x₁ y₀ y₁).tabulate (levelCompiled w c).inputs "y" [0, 1] =
      .ok (⟨#[x₀, x₁], 2, 1⟩, [y₀, y₁]) := by cbv
  have hg : (level w x₀ x₁ y₀ y₁).gradient (levelCompiled w c).initial ≠ 0 := by
    intro hzero
    exact h (congrFun ((level_gradient w x₀ x₁ y₀ y₁ c).symm.trans hzero) ⟨0, one_pos⟩)
  obtain ⟨params, passes, hfit, hlength, hlt⟩ := RowModel.exists_fit_lt (s := Workspace.empty)
    (level_describes w c x₀ x₁ y₀ y₁) LinearSolver.orthogonal_products
    LinearSolver.orthogonal_exact (CompiledTree.check_of_tabulate rfl hx) hg
  obtain ⟨p, rfl⟩ := List.length_eq_one_iff.1 hlength
  refine ⟨_, p, Tree.tune_of_fit htrace hc rfl hx hfit rfl, rfl, ?_⟩
  rintro rfl
  exact lt_irrefl _ hlt

theorem tune_improves_line :
    (∃ r, (lineTree (1 : Float) 1).tune .orthogonal (lineData 1 2 3 5) "y" [0, 1]
        { budget := 1 } false = .ok r ∧
      r.tree.same (lineTree 1 1) = false ∧
      (lineTree (1 : Float) 1).Retuned { rescale := true } r.tree) ∧
    ∃ r p ws ys, (lineTree (1 : ℝ) 1).tune .orthogonal (lineData 1 2 3 5) "y" [0, 1]
        { budget := 1, weights := false, rescale := false } false = .ok r ∧
      r.tree = lineTree 1 p ∧ p ≠ 1 ∧
      r.tree.values (lineData 1 2 3 5) [0, 1] = .ok ws ∧
      (lineData (1 : ℝ) 2 3 5).numbers "y" [0, 1] = .ok ys ∧
      squaredError (ws.map (r.rescaling.getD ⟨1, 0⟩).apply) ys ≤
        squaredError [1 * 1 + 1, 1 * 2 + 1] ys := by
  have hd : (lineTree (1 : ℝ) 1).DistinctCategories := by
    simp [lineTree, Tree.distinctCategories_node, Symbol.DistinctCategories]
  constructor
  · obtain ⟨r, hr, hmoved⟩ := exists_ok_of_any (p := fun r => !r.tree.same (lineTree 1 1))
      (x := (lineTree (1 : Float) 1).tune .orthogonal (lineData 1 2 3 5) "y" [0, 1]
        { budget := 1 } false) (by decide +kernel)
    rw [Bool.not_eq_true'] at hmoved
    exact ⟨r, hr, hmoved, (Tree.tune_improves.1 _ _ _ _ _ _ _ _ (lineTree_leavesBare 1 1) hr).1⟩
  · have hoff : (1 : ℝ) * 1 + 1 - 3 + (2 * 1 + 1 - 5) ≠ 0 := by norm_num
    obtain ⟨r, p, hr, htree, hp⟩ := exists_tune_level hoff
    obtain ⟨ws, ys, hws, hys, hle⟩ := Tree.tune_improves.2 _ _ _ _ _ _ _ _ _
      (lineTree_leavesBare 1 1) hd (by decide) (lineTree_values 1 1 1 2 3 5) hr
    exact ⟨r, p, ws, ys, hr, htree, hp, hws, hys, hle⟩

end Line

end SymbolicFit
