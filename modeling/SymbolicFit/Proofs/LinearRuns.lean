import Mathlib
import SymbolicFit.Proofs.LinearProblems
import SymbolicFit.Proofs.RelatedRuns

/-!
Runs on problems with affine residuals, with an exact solver and without tolerances. Every iteration
accepts its first trial step and lowers the cost, until one begins where the gradient vanishes: that
one accepts none of its trial steps, and the run ends at a minimum.
-/

namespace SymbolicFit.LeastSquares

open Fitting Matrix

variable {σ : Type}

namespace Progress

/-- The Jacobian is evaluated. -/
def evaluated (s : Progress ℝ) : Progress ℝ := { s with jacobianCalls := s.jacobianCalls + 1 }

/-- Some trial steps are rejected. -/
noncomputable def rejected (trials : ℕ) (s : Progress ℝ) : Progress ℝ :=
  { s with damping := s.damping * 10.0 ^ trials, residualCalls := s.residualCalls + trials }

/-- An iteration is over. -/
def completed (s : Progress ℝ) : Progress ℝ := { s with iterations := s.iterations + 1 }

theorem rejected_rejected (m n : ℕ) (s : Progress ℝ) :
    (s.rejected n).rejected m = s.rejected (n + m) := by
  simp only [rejected, mul_assoc, ← pow_add, Nat.add_assoc]

end Progress

namespace LinearProblem

/-- The problem answers with the residuals and the Jacobian of a linear one. -/
structure Describes (l : LinearProblem) (p : LeastSquares σ ℝ) : Prop where
  parameterCount : p.parameterCount = l.parameterCount
  residuals : ∀ c, c.length = l.parameterCount → Gives (p.residuals c) (l.residuals c)
  jacobian : ∀ c, c.length = l.parameterCount → Gives (p.jacobian c) l.jacobian

variable (l : LinearProblem) (solver : LinearSolver ℝ)

noncomputable def system (s : Progress ℝ) : NormalSystem ℝ :=
  .ofJacobian l.parameterCount l.jacobian s.residuals

/-- A step is accepted. -/
noncomputable def moveBy (s : Progress ℝ) (step : List ℝ) : Progress ℝ :=
  let params := List.zipWith (· + ·) s.params step
  { s with
    params
    residuals := l.residuals params
    cost := l.cost params
    damping := Scalar.greater (s.damping * 0.1) 1e-12
    residualCalls := s.residualCalls + 1 }

/-- The step for the damping at hand is accepted. -/
noncomputable def accept (s : Progress ℝ) : Progress ℝ :=
  l.moveBy s ((solver.step (l.system s) s.damping).getD [])

/-- One iteration that accepts its first trial step. -/
noncomputable def advance (s : Progress ℝ) : Progress ℝ :=
  (l.accept solver s.evaluated).completed

/-- What holds of the state of a run that started with the given damping. -/
structure Tracks (damping : ℝ) (s : Progress ℝ) : Prop where
  length : s.params.length = l.parameterCount
  residuals : s.residuals = l.residuals s.params
  cost : s.cost = l.cost s.params
  damping : min damping 1e-12 ≤ s.damping

variable {l} {solver} {p : LeastSquares σ ℝ} {damping : ℝ} {s : Progress ℝ}

theorem tracks_start {initial : List ℝ} (h : initial.length = l.parameterCount) (damping : ℝ) :
    l.Tracks damping (.start initial (l.residuals initial) damping) :=
  ⟨h, rfl, rfl, min_le_left _ _⟩

theorem accept_eq_moveBy {step : List ℝ} (h : solver.step (l.system s) s.damping = some step) :
    l.accept solver s = l.moveBy s step := by
  rw [accept, h, Option.getD_some]

theorem Tracks.evaluated (hs : l.Tracks damping s) : l.Tracks damping s.evaluated :=
  ⟨hs.length, hs.residuals, hs.cost, hs.damping⟩

theorem Tracks.completed (hs : l.Tracks damping s) : l.Tracks damping s.completed :=
  ⟨hs.length, hs.residuals, hs.cost, hs.damping⟩

section Steps

variable (hp : l.Describes p) (hproducts : solver.ExactProducts) (hsolver : solver.Exact)
  (hdamping : 0 < damping)
  (hs : l.Tracks damping s)

include hdamping hs in
theorem Tracks.pos : 0 < s.damping := by
  refine lt_of_lt_of_le (lt_min hdamping ?_) hs.damping
  norm_num

include hdamping hs in
theorem Tracks.rejected (trials : ℕ) : l.Tracks damping (s.rejected trials) where
  length := hs.length
  residuals := hs.residuals
  cost := hs.cost
  damping := by
    have hpow : (1 : ℝ) ≤ 10.0 ^ trials := one_le_pow₀ (by norm_num)
    exact hs.damping.trans (le_mul_of_one_le_right (hs.pos hdamping).le hpow)

include hsolver hdamping hs

theorem Tracks.exists_step : ∃ δ, solver.step (l.system s) s.damping = some δ ∧
    δ.length = l.parameterCount ∧
    (l.matrixᵀ * l.matrix + s.damping • NormalSystem.scales (l.matrixᵀ * l.matrix)) *ᵥ
      toVector l.parameterCount δ = -l.gradient s.params := by
  obtain ⟨δ, -, hstep, hlength, hδ⟩ :=
    hsolver.exists_step l.parameterCount l.jacobian s.residuals (hs.pos hdamping)
  refine ⟨δ, hstep, hlength, ?_⟩
  rw [gradient, ← hs.residuals]
  exact hδ

theorem Tracks.accept : l.Tracks damping (l.accept solver s) where
  length := by
    obtain ⟨δ, hstep, hlength, -⟩ := hs.exists_step hsolver hdamping
    rw [accept_eq_moveBy hstep, moveBy, List.length_zipWith, hs.length, hlength, min_self]
  residuals := rfl
  cost := rfl
  damping := by
    rw [LinearProblem.accept, moveBy, greater_real]
    exact (min_le_right _ _).trans (le_max_right _ _)

theorem Tracks.cost_accept_lt (hg : l.gradient s.params ≠ 0) :
    (l.accept solver s).cost < s.cost := by
  obtain ⟨δ, hstep, hlength, hδ⟩ := hs.exists_step hsolver hdamping
  rw [accept_eq_moveBy hstep, moveBy, hs.cost]
  exact cost_lt_of_step (hs.pos hdamping) (hs.length.trans hlength.symm) hδ hg

theorem Tracks.step_eq_replicate (hg : l.gradient s.params = 0) :
    solver.step (l.system s) s.damping = some (List.replicate l.parameterCount 0) := by
  obtain ⟨δ, hstep, hlength, hδ⟩ := hs.exists_step hsolver hdamping
  have hA := posDef_damped l.matrix (hs.pos hdamping)
  have hzero : toVector l.parameterCount δ = 0 := by
    refine ((mulVec_eq_iff_of_posDef hA hδ 0).1 ?_).symm
    rw [hg, mulVec_zero, neg_zero]
  rw [hstep, eq_replicate_of_toVector hlength hzero]

include hp

/-- Unless the gradient vanishes the first of the trial steps is accepted. -/
theorem Tracks.gives_tryStep_accept (hg : l.gradient s.params ≠ 0) (trials : ℕ) :
    ∃ reduction, Gives (p.tryStep solver (l.system s) (trials + 1) s)
      (l.accept solver s, some reduction) := by
  obtain ⟨δ, hstep, -⟩ := hs.exists_step hsolver hdamping
  have hlt := hs.cost_accept_lt hsolver hdamping hg
  have hlength := (hs.accept hsolver hdamping).length
  rw [accept_eq_moveBy hstep] at hlt hlength ⊢
  refine ⟨?reduction, ?gives⟩
  case gives =>
    rw [tryStep, hstep]
    refine (hp.residuals _ hlength).bind ?_
    rw [if_pos ⟨allFinite_real _, hlt⟩]
    exact .pure _

/-- Where the gradient vanishes every trial step is zero and is rejected. -/
theorem Tracks.gives_tryStep_reject (hg : l.gradient s.params = 0) (trials : ℕ) :
    Gives (p.tryStep solver (l.system s) trials s) (s.rejected trials, none) := by
  induction trials generalizing s with
  | zero =>
    rw [tryStep, Progress.rejected, pow_zero, mul_one]
    exact .pure _
  | succ trials ih =>
    have hstay : List.zipWith (· + ·) s.params (List.replicate l.parameterCount 0) = s.params := by
      refine List.ext_getElem ?_ fun i _ _ => ?_
      · rw [List.length_zipWith, List.length_replicate, hs.length, min_self]
      · rw [List.getElem_zipWith, List.getElem_replicate, add_zero]
    have hcost : ¬costOf (l.residuals s.params) < s.cost := hs.cost ▸ lt_irrefl _
    have hnext := ih (hs.rejected hdamping 1) hg
    rw [Progress.rejected_rejected, Nat.add_comm 1 trials, Progress.rejected, pow_one] at hnext
    rw [tryStep, hs.step_eq_replicate hsolver hdamping hg]
    dsimp only
    rw [hstay]
    refine (hp.residuals _ hs.length).bind ?_
    rw [if_neg fun h => hcost h.2]
    exact hnext

/-- However many trial steps are made, the damping stays above its bound. -/
theorem Tracks.exists_tryStep (trials : ℕ) : ∃ s' accepted,
    Gives (p.tryStep solver (l.system s) trials s) (s', accepted) ∧
      min damping 1e-12 ≤ s'.damping := by
  by_cases hg : l.gradient s.params = 0
  · exact ⟨_, none, hs.gives_tryStep_reject hp hsolver hdamping hg trials,
      (hs.rejected hdamping trials).damping⟩
  · cases trials with
    | zero => exact ⟨s, none, .pure _, hs.damping⟩
    | succ trials =>
      obtain ⟨reduction, h⟩ := hs.gives_tryStep_accept hp hsolver hdamping hg trials
      exact ⟨_, some reduction, h, (hs.accept hsolver hdamping).damping⟩

include hproducts

omit hsolver hdamping in
/-- An iteration makes its trial steps, and ends the run if none of them is accepted. -/
theorem Tracks.gives_iteration {s' : Progress ℝ} {accepted : Option ℝ}
    (h : Gives (p.tryStep solver (l.system s) maxTrials s.evaluated) (s', accepted)) :
    Gives (p.iteration solver 0 s)
      (s'.completed, if accepted.isSome then none else some .stalled) := by
  have hfinite : l.jacobian.all allFinite = true :=
    List.all_eq_true.2 fun row _ => allFinite_real row
  rw [iteration]
  refine (hp.jacobian _ hs.length).bind ?_
  dsimp only
  rw [hfinite, if_neg (by decide), if_neg fun h => lt_irrefl _ h.1, hp.parameterCount, hproducts]
  refine h.bind ?_
  cases accepted with
  | none => exact .pure _
  | some reduction =>
    dsimp only
    rw [if_neg fun h => lt_irrefl _ h.1]
    exact .pure _

theorem Tracks.gives_iteration_advance (hg : l.gradient s.params ≠ 0) :
    Gives (p.iteration solver 0 s) (l.advance solver s, none) := by
  obtain ⟨reduction, h⟩ := hs.evaluated.gives_tryStep_accept hp hsolver hdamping hg (maxTrials - 1)
  exact hs.gives_iteration hp hproducts h

theorem Tracks.gives_iteration_stalled (hg : l.gradient s.params = 0) :
    Gives (p.iteration solver 0 s)
      ((s.evaluated.rejected maxTrials).completed, some .stalled) :=
  hs.gives_iteration hp hproducts
    (hs.evaluated.gives_tryStep_reject hp hsolver hdamping hg maxTrials)

end Steps

section Runs

variable (hp : l.Describes p) (hproducts : solver.ExactProducts) (hsolver : solver.Exact)
  (hdamping : 0 < damping)
  (hs : l.Tracks damping s)

include hsolver hdamping hs

theorem Tracks.iterate_advance (i : ℕ) : l.Tracks damping ((l.advance solver)^[i] s) := by
  induction i with
  | zero => exact hs
  | succ i ih =>
    rw [Function.iterate_succ_apply']
    exact (ih.evaluated.accept hsolver hdamping).completed

include hp hproducts

/-- What a run does after iterations that begin where the gradient does not vanish. -/
theorem Tracks.gives_iterate_add {i budget : ℕ} {b : Progress ℝ × Ending}
    (hg : ∀ j < i, l.gradient ((l.advance solver)^[j] s).params ≠ 0)
    (hb : Gives (p.iterate solver 0 budget ((l.advance solver)^[i] s)) b) :
    Gives (p.iterate solver 0 (i + budget) s) b := by
  induction i generalizing s with
  | zero => rwa [Nat.zero_add]
  | succ i ih =>
    have hnext := ih (hs.iterate_advance hsolver hdamping 1)
      (fun j hj => hg (j + 1) (Nat.succ_lt_succ hj)) hb
    rw [Nat.succ_add, iterate_succ]
    exact (hs.gives_iteration_advance hp hproducts hsolver hdamping (hg 0 i.succ_pos)).bind hnext

/-- Iterations that begin where the gradient does not vanish use up their budget. -/
theorem Tracks.gives_iterate_exhausted {i : ℕ}
    (hg : ∀ j < i, l.gradient ((l.advance solver)^[j] s).params ≠ 0) :
    Gives (p.iterate solver 0 i s) ((l.advance solver)^[i] s, .exhausted) := by
  have hend : Gives (p.iterate solver 0 0 ((l.advance solver)^[i] s))
      ((l.advance solver)^[i] s, .exhausted) := .pure _
  exact hs.gives_iterate_add hp hproducts hsolver hdamping hg hend

/-- The run ends in the first iteration that begins where the gradient vanishes. -/
theorem Tracks.gives_iterate_stalled {i budget : ℕ} (hi : i < budget)
    (hg : ∀ j < i, l.gradient ((l.advance solver)^[j] s).params ≠ 0)
    (hg' : l.gradient ((l.advance solver)^[i] s).params = 0) :
    Gives (p.iterate solver 0 budget s)
      ((((l.advance solver)^[i] s).evaluated.rejected maxTrials).completed, .stalled) := by
  obtain ⟨k, rfl⟩ := Nat.exists_eq_add_of_lt hi
  rw [Nat.add_assoc]
  refine hs.gives_iterate_add hp hproducts hsolver hdamping hg ?_
  rw [iterate_succ]
  have hs' := hs.iterate_advance hsolver hdamping i
  exact (hs'.gives_iteration_stalled hp hproducts hsolver hdamping hg').bind (.pure _)

end Runs

variable (l solver) in
theorem iterate_advance_counts (s : Progress ℝ) (i : ℕ) :
    ((l.advance solver)^[i] s).iterations = s.iterations + i ∧
      ((l.advance solver)^[i] s).residualCalls = s.residualCalls + i ∧
      ((l.advance solver)^[i] s).jacobianCalls = s.jacobianCalls + i := by
  induction i with
  | zero => exact ⟨rfl, rfl, rfl⟩
  | succ i ih =>
    rw [Function.iterate_succ_apply', ← Nat.add_assoc, ← Nat.add_assoc, ← Nat.add_assoc]
    exact ⟨congrArg (· + 1) ih.1, congrArg (· + 1) ih.2.1, congrArg (· + 1) ih.2.2⟩

theorem Describes.gives_solve (hp : l.Describes p) {settings : Settings ℝ}
    (hbudget : settings.budget ≠ 0) (htolerance : settings.tolerance = 0)
    (hverify : settings.verify = false) (hparameters : l.parameterCount ≠ 0) {initial : List ℝ}
    (hinitial : initial.length = l.parameterCount) {b : Progress ℝ × Ending}
    (h : Gives (p.iterate solver 0 settings.budget
      (.start initial (l.residuals initial) settings.damping)) b) :
    Gives (p.solve solver settings initial) (b.1.report b.2) := by
  have hcount := hp.parameterCount
  refine LeastSquares.gives_solve solver (hinitial.trans hcount.symm) hbudget
    (hcount ▸ hparameters) (hp.residuals _ hinitial) (allFinite_real _) ?_
  rw [run, hverify, if_neg Bool.false_ne_true, htolerance]
  exact h

/-- A linear problem as one that answers with functions of the parameters. -/
noncomputable def problem (l : LinearProblem) : LeastSquares Unit ℝ where
  parameterCount := l.parameterCount
  residuals c := pure (l.residuals c)
  jacobian _ := pure l.jacobian

theorem describes_problem (l : LinearProblem) : l.Describes l.problem :=
  ⟨rfl, fun _ _ => .pure _, fun _ _ => .pure _⟩

/-- Two parameters of which only the sum matters, and two targets for it. -/
noncomputable def overlapping : LinearProblem where
  parameterCount := 2
  jacobian := [[1, 1], [1, 1]]
  offset := [-1, 1]
  row_length := by simp
  offset_length := rfl

theorem overlapping_gradient (x : ℝ) : overlapping.gradient [x, x] = fun _ => 4 * x := by
  have hresiduals : overlapping.residuals [x, x] = [x + x + -1, x + x + 1] := by
    simp [residuals, overlapping, Scalar.dot, ExactRing.sum_eq]
  have hmatrix : overlapping.matrix = fun _ _ => 1 := by
    ext i j
    fin_cases i <;> fin_cases j <;> rfl
  funext i
  rw [gradient, hresiduals, hmatrix]
  change ∑ k : Fin 2, 1 * toVector 2 [x + x + -1, x + x + 1] k = _
  rw [Fin.sum_univ_two]
  change 1 * (x + x + -1) + 1 * (x + x + 1) = 4 * x
  ring

end LinearProblem

open LinearProblem

/-- The run of a linear problem, state by state. The damping stays above its bound. An iteration
that begins where the gradient does not vanish accepts its first trial step and lowers the cost. The
run stalls if and only if one of its iterations begins where the gradient vanishes, and then at a
minimum; otherwise it uses up its budget, with one accepted step in each iteration. -/
theorem solve_linear {l : LinearProblem} {p : LeastSquares σ ℝ} (hp : l.Describes p)
    {solver : LinearSolver ℝ} (hproducts : solver.ExactProducts) (hsolver : solver.Exact)
    (settings : Settings ℝ)
    (hbudget : settings.budget ≠ 0) (htolerance : settings.tolerance = 0)
    (hverify : settings.verify = false) (hdamping : 0 < settings.damping)
    (hparameters : l.parameterCount ≠ 0) (initial : List ℝ)
    (hinitial : initial.length = l.parameterCount) :
    let state i :=
      (l.advance solver)^[i] (.start initial (l.residuals initial) settings.damping)
    (∀ i trials, ∃ s accepted,
      Gives (p.tryStep solver (l.system (state i)) trials (state i).evaluated) (s, accepted) ∧
        min settings.damping 1e-12 ≤ s.damping) ∧
    (∀ i, (∀ j < i, l.gradient (state j).params ≠ 0) →
      Gives (p.iterate solver 0 i (state 0)) (state i, .exhausted)) ∧
    (∀ i, l.gradient (state i).params ≠ 0 →
      (∃ reduction, Gives (p.tryStep solver (l.system (state i)) 1 (state i).evaluated)
        (l.accept solver (state i).evaluated, some reduction)) ∧
      Gives (p.iteration solver 0 (state i)) (state (i + 1), none) ∧
      (state (i + 1)).cost < (state i).cost) ∧
    ∃ report, Gives (p.solve solver settings initial) report ∧
      (report.ending = .stalled ↔ ∃ i < settings.budget,
        (∀ j < i, l.gradient (state j).params ≠ 0) ∧ l.gradient (state i).params = 0) ∧
      (report.ending = .stalled →
        report.cost = l.cost report.params ∧ ∀ c, l.cost report.params ≤ l.cost c) ∧
      (report.ending ≠ .stalled →
        report = (state settings.budget).report .exhausted ∧
        report.iterations = settings.budget ∧ report.residualCalls = 1 + settings.budget ∧
        ∀ i < settings.budget, l.gradient (state i).params ≠ 0) := by
  intro state
  have hstart : l.Tracks settings.damping
      (.start initial (l.residuals initial) settings.damping) := tracks_start hinitial _
  have htracks : ∀ i, l.Tracks settings.damping (state i) :=
    hstart.iterate_advance hsolver hdamping
  refine ⟨fun i trials => (htracks i).evaluated.exists_tryStep hp hsolver hdamping trials,
    fun i hg => hstart.gives_iterate_exhausted hp hproducts hsolver hdamping hg, fun i hg => ?_, ?_⟩
  · have hs := (htracks i).evaluated
    have hnext : state (i + 1) = l.advance solver (state i) := Function.iterate_succ_apply' ..
    rw [hnext]
    exact ⟨hs.gives_tryStep_accept hp hsolver hdamping hg 0,
      (htracks i).gives_iteration_advance hp hproducts hsolver hdamping hg,
      hs.cost_accept_lt hsolver hdamping hg⟩
  · by_cases hstationary : ∃ i, i < settings.budget ∧ l.gradient (state i).params = 0
    · classical
      -- the first iteration that begins at a stationary point
      obtain ⟨hi, hg⟩ := Nat.find_spec hstationary
      set i := Nat.find hstationary
      have hbefore : ∀ j < i, l.gradient (state j).params ≠ 0 := fun j hj hj' =>
        Nat.find_min hstationary hj ⟨hj.trans hi, hj'⟩
      refine ⟨_, hp.gives_solve hbudget htolerance hverify hparameters hinitial
        (hstart.gives_iterate_stalled hp hproducts hsolver hdamping hi hbefore hg), ?_, ?_, ?_⟩
      · exact ⟨fun _ => ⟨i, hi, hbefore, hg⟩, fun _ => rfl⟩
      · exact fun _ => ⟨(htracks i).cost, cost_le_of_gradient_eq_zero hg⟩
      · exact fun h => absurd rfl h
    · have hg : ∀ i < settings.budget, l.gradient (state i).params ≠ 0 := fun i hi h =>
        hstationary ⟨i, hi, h⟩
      obtain ⟨hiterations, hcalls, -⟩ := iterate_advance_counts l solver
        (.start initial (l.residuals initial) settings.damping) settings.budget
      refine ⟨_, hp.gives_solve hbudget htolerance hverify hparameters hinitial
        (hstart.gives_iterate_exhausted hp hproducts hsolver hdamping hg), ?_, ?_, ?_⟩
      · exact ⟨nofun, fun ⟨i, hi, _, h⟩ => absurd h (hg i hi)⟩
      · exact nofun
      · exact fun _ => ⟨rfl, hiterations.trans (Nat.zero_add _), hcalls, hg⟩

/-- One iteration from a point that is not a minimum, and a run that begins at one. -/
theorem solve_linear_overlapping :
    (∃ report, Gives (overlapping.problem.solve .orthogonal { budget := 1 } [1, 1]) report ∧
      report.ending = .exhausted ∧ report.iterations = 1) ∧
    ∃ report, Gives (overlapping.problem.solve .orthogonal {} [0, 0]) report ∧
      report.ending = .stalled ∧ ∀ c, overlapping.cost report.params ≤ overlapping.cost c := by
  have hdamping : (0 : ℝ) < 1e-3 := by norm_num
  constructor
  · obtain ⟨-, -, -, report, hreport, hiff, -, hexhausted⟩ :=
      solve_linear (describes_problem overlapping) LinearSolver.orthogonal_products
        LinearSolver.orthogonal_exact { budget := 1 } one_ne_zero rfl rfl hdamping two_ne_zero
        [1, 1] rfl
    have hne : report.ending ≠ .stalled := fun h => by
      obtain ⟨i, hi, -, hg⟩ := hiff.1 h
      obtain rfl := Nat.lt_one_iff.1 hi
      have hzero := congrFun ((overlapping_gradient 1).symm.trans hg) ⟨0, two_pos⟩
      norm_num at hzero
    obtain ⟨hending, hiterations, -⟩ := hexhausted hne
    exact ⟨report, hreport, congrArg Report.ending hending, hiterations⟩
  · obtain ⟨-, -, -, report, hreport, hiff, hminimum, -⟩ :=
      solve_linear (describes_problem overlapping) LinearSolver.orthogonal_products
        LinearSolver.orthogonal_exact {} (by decide) rfl rfl hdamping two_ne_zero [0, 0] rfl
    have hg : overlapping.gradient [0, 0] = 0 := by
      rw [overlapping_gradient, mul_zero]
      rfl
    have hstalled := hiff.2 ⟨0, by decide, nofun, hg⟩
    exact ⟨report, hreport, hstalled, (hminimum hstalled).2⟩

end SymbolicFit.LeastSquares
