import Mathlib
import SymbolicFit.Proofs.LoggedModels

/-!
What a run counts and what it is charged. The counts of a run are those of the calls it makes,
whatever a call is charged in the state of its problem, and they are bounded by the budget. The
passes that a fit reports are the calls of its run.
-/

namespace SymbolicFit

open Fitting

variable {σ α β γ : Type}

namespace Fitting

theorem Ensures.and {x : Fitting σ β} {Q R : β → Prop} (hx : Ensures x Q) (hx' : Ensures x R) :
    Ensures x fun b => Q b ∧ R b := fun s b s' h => ⟨hx s b s' h, hx' s b s' h⟩

/-- What each step keeps is kept by all of them. -/
theorem Triple.mapM {P E : σ → Prop} {f : β → Fitting σ γ}
    (h : ∀ b, Triple P (f b) (fun _ => P) E) (bs : List β) :
    Triple P (bs.mapM f) (fun _ => P) E := by
  induction bs with
  | nil => exact .pure fun _ h => h
  | cons b bs ih =>
    rw [List.mapM_cons]
    exact .bind (h b) fun _ => .bind ih fun _ => .pure fun _ h => h

end Fitting

namespace LeastSquares

/-- Two meters on a state, and what one call adds to its meter. -/
structure Meter (σ : Type) where
  residuals : σ → Nat
  jacobians : σ → Nat
  charge : Nat

/-- The meters stand at `i` calls for residuals and `j` for Jacobians. -/
def Meter.Shows (m : Meter σ) (i j : Nat) (s : σ) : Prop :=
  m.residuals s = i * m.charge ∧ m.jacobians s = j * m.charge

/-- Every call that succeeds is charged on its meter. -/
structure Charges (p : LeastSquares σ α) (m : Meter σ) : Prop where
  residuals : ∀ c i j,
    Triple (m.Shows i j) (p.residuals c) (fun _ => m.Shows (i + 1) j) fun _ => True
  jacobian : ∀ c i j,
    Triple (m.Shows i j) (p.jacobian c) (fun _ => m.Shows i (j + 1)) fun _ => True

/-- The meters stand at the counts of the run. -/
def Progress.OnMeter (m : Meter σ) (s : Progress α) : σ → Prop :=
  m.Shows s.residualCalls s.jacobianCalls

section Charged

variable [Scalar α] {p : LeastSquares σ α} {m : Meter σ} (hp : p.Charges m)
  (solver : LinearSolver α)
include hp

theorem Charges.wrongAmong (c : List α) (jacobian : List (List α)) (js : List Nat) (i j : Nat) :
    Triple (m.Shows i j) (p.wrongAmong c jacobian js) (fun b => m.Shows (i + b.2) j)
      fun _ => True := by
  induction js generalizing i with
  | nil => exact .pure fun _ h => h
  | cons k js ih =>
    refine .bind (hp.residuals _ i j) fun up => .bind (hp.residuals _ (i + 1) j) fun down => ?_
    split_ifs
    · exact .pure fun _ h => h
    · refine .bind (ih (i + 2)) fun b => .pure fun _ h => ?_
      have hcount : i + (b.2 + 2) = i + 2 + b.2 := by omega
      rwa [hcount]

theorem Charges.tryStep (system : NormalSystem α) (n : Nat) (s : Progress α) :
    Triple (s.OnMeter m) (p.tryStep solver system n s) (fun b => b.1.OnMeter m)
      fun _ => True := by
  induction n generalizing s with
  | zero => exact .pure fun _ h => h
  | succ n ih =>
    rw [LeastSquares.tryStep]
    cases solver.step system s.damping with
    | none => exact ih { s with damping := s.damping * 10.0 }
    | some step =>
      refine .bind (hp.residuals _ _ _) fun residuals => ?_
      dsimp only
      split_ifs
      · exact .pure fun _ h => h
      · exact ih { s with residualCalls := s.residualCalls + 1, damping := s.damping * 10.0 }

theorem Charges.iteration (tolerance : α) (s : Progress α) :
    Triple (s.OnMeter m) (p.iteration solver tolerance s) (fun b => b.1.OnMeter m)
      fun _ => True := by
  refine .bind (hp.jacobian _ _ _) fun jacobian => ?_
  dsimp only
  split_ifs
  · exact .pure fun _ h => h
  · exact .pure fun _ h => h
  · refine .bind (hp.tryStep solver _ _ { s with jacobianCalls := s.jacobianCalls + 1 })
      fun ⟨s', accepted⟩ => ?_
    cases accepted with
    | none => exact .pure fun _ h => h
    | some reduction =>
      dsimp only
      split_ifs
      · exact .pure fun _ h => h
      · exact .pure fun _ h => h

theorem Charges.iterate (tolerance : α) (budget : Nat) (s : Progress α) :
    Triple (s.OnMeter m) (p.iterate solver tolerance budget s) (fun b => b.1.OnMeter m)
      fun _ => True := by
  induction budget generalizing s with
  | zero => exact .pure fun _ h => h
  | succ budget ih =>
    rw [iterate_succ]
    refine .bind (hp.iteration solver tolerance s) fun ⟨s', ending⟩ => ?_
    cases ending with
    | none => exact ih s'
    | some ending => exact .pure fun _ h => h

theorem Charges.run (settings : Settings α) (s : Progress α) :
    Triple (s.OnMeter m) (p.run solver settings s) (fun b => b.1.OnMeter m) fun _ => True := by
  unfold LeastSquares.run
  split_ifs
  · refine .bind (hp.jacobian _ _ _) fun jacobian => ?_
    dsimp only
    split_ifs
    · exact .pure fun _ h => h
    · refine .bind (hp.wrongAmong _ _ _ _ _) fun ⟨wrong, n⟩ => ?_
      dsimp only
      split_ifs
      · exact .pure fun _ h => h
      · exact hp.iterate solver _ _ { s with
          residualCalls := s.residualCalls + n, jacobianCalls := s.jacobianCalls + 1 }
  · exact hp.iterate solver _ _ s

/-- A run that starts from empty meters reports what they stand at when it ends. -/
theorem Charges.solve (settings : Settings α) (initial : List α) :
    Triple (m.Shows 0 0) (p.solve solver settings initial)
      (fun report => m.Shows report.residualCalls report.jacobianCalls) fun _ => True := by
  rw [solve_eq_fresh]
  unfold solveFresh
  split_ifs
  · exact .throw fun _ _ => trivial
  · exact .pure fun _ h => h
  · refine .bind (hp.residuals _ 0 0) fun residuals => ?_
    split_ifs
    · exact .pure fun _ h => h
    · exact .bind (hp.run solver settings (.start initial residuals settings.damping))
        fun b => .pure fun _ h => h

end Charged

section Budget

/-- The calls that at most `budget` iterations make on the way from `s` to `s'`. -/
structure Progress.Spends (s : Progress α) (budget : Nat) (s' : Progress α) : Prop where
  residuals_ge : s.residualCalls ≤ s'.residualCalls
  residuals_le : s'.residualCalls ≤ s.residualCalls + maxTrials * budget
  jacobians_ge : s.jacobianCalls + min 1 budget ≤ s'.jacobianCalls
  jacobians_le : s'.jacobianCalls ≤ s.jacobianCalls + budget

theorem Progress.Spends.trans {s s' s'' : Progress α} {k : Nat} (h : s.Spends 1 s')
    (h' : s'.Spends k s'') : s.Spends (k + 1) s'' where
  residuals_ge := h.residuals_ge.trans h'.residuals_ge
  residuals_le := by
    have hle := h'.residuals_le.trans (Nat.add_le_add_right h.residuals_le _)
    rwa [Nat.add_assoc, ← Nat.mul_add, Nat.add_comm 1] at hle
  jacobians_ge := by
    have := h.jacobians_ge
    have := h'.jacobians_ge
    omega
  jacobians_le := by
    have := h.jacobians_le
    have := h'.jacobians_le
    omega

/-- An iteration may be the last one. -/
theorem Progress.Spends.mono {s s' : Progress α} (h : s.Spends 1 s') (k : Nat) :
    s.Spends (k + 1) s' where
  residuals_ge := h.residuals_ge
  residuals_le := by
    have := Nat.mul_le_mul_left maxTrials (Nat.le_add_left 1 k)
    have := h.residuals_le
    omega
  jacobians_ge := by
    have := h.jacobians_ge
    omega
  jacobians_le := by
    have := h.jacobians_le
    omega

variable [Scalar α] (p : LeastSquares σ α) (solver : LinearSolver α)

theorem tryStep_residualCalls_le (system : NormalSystem α) (n : Nat) (s : Progress α) :
    Ensures (p.tryStep solver system n s) fun b =>
      b.1.residualCalls ≤ s.residualCalls + n := by
  induction n generalizing s with
  | zero => exact .pure (Nat.le_refl _)
  | succ n ih =>
    rw [tryStep]
    cases solver.step system s.damping with
    | none => exact (ih { s with damping := s.damping * 10.0 }).imp fun b hb => Nat.le_succ_of_le hb
    | some step =>
      refine .bind (.trivial _) fun residuals _ => ?_
      dsimp only
      split_ifs
      · exact .pure (by dsimp only; omega)
      · refine (ih { s with residualCalls := s.residualCalls + 1, damping := s.damping * 10.0 }).imp
          fun b hb => ?_
        dsimp only at hb
        omega

theorem iteration_spends (tolerance : α) (s : Progress α) :
    Ensures (p.iteration solver tolerance s) fun b => s.Spends 1 b.1 := by
  refine .bind (.trivial _) fun jacobian _ => ?_
  have hcalled : s.Spends 1 { s with jacobianCalls := s.jacobianCalls + 1 } :=
    ⟨Nat.le_refl _, Nat.le_add_right _ _, Nat.le_refl _, Nat.le_refl _⟩
  dsimp only
  split_ifs
  · exact .pure hcalled
  · exact .pure hcalled
  · refine .bind ((tryStep_leads p solver _ _ _).and (tryStep_residualCalls_le p solver _ _ _))
      fun ⟨s', accepted⟩ ⟨⟨_, hge, hjacobians, _⟩, hle⟩ => ?_
    have hspends : s.Spends 1 { s' with iterations := s'.iterations + 1 } :=
      ⟨hge, hle, hjacobians.le, hjacobians.ge⟩
    cases accepted with
    | none => exact .pure hspends
    | some reduction =>
      dsimp only
      split_ifs
      · exact .pure hspends
      · exact .pure hspends

theorem iterate_spends (tolerance : α) (budget : Nat) (s : Progress α) :
    Ensures (p.iterate solver tolerance budget s) fun b => s.Spends budget b.1 := by
  induction budget generalizing s with
  | zero => exact .pure ⟨Nat.le_refl _, Nat.le_refl _, Nat.le_refl _, Nat.le_refl _⟩
  | succ budget ih =>
    rw [iterate_succ]
    refine .bind (iteration_spends p solver tolerance s) fun ⟨s', ending⟩ hs => ?_
    cases ending with
    | none => exact (ih s').imp fun b hb => hs.trans hb
    | some ending => exact .pure (hs.mono budget)

theorem wrongAmong_count (c : List α) (jacobian : List (List α)) (js : List Nat) :
    Ensures (p.wrongAmong c jacobian js) fun b => b.1 = none → b.2 = 2 * js.length := by
  induction js with
  | nil => exact .pure fun _ => rfl
  | cons j js ih =>
    refine .bind (.trivial _) fun up _ => .bind (.trivial _) fun down _ => ?_
    split_ifs
    · exact .pure fun h => by cases h
    · refine .bind ih fun b hb => .pure fun h => ?_
      rw [hb h, List.length_cons]
      omega

/-- A run that does not fail spends its budget after the comparison of its first Jacobian. -/
theorem run_spends (settings : Settings α) (s : Progress α) :
    Ensures (p.run solver settings s) fun b => b.2.isFailure = false →
      (s.counted (2 * s.params.length * settings.verify.toNat) settings.verify.toNat).Spends
        settings.budget b.1 := by
  unfold run
  split_ifs with hv
  · rw [hv]
    refine .bind (.trivial _) fun jacobian _ => ?_
    dsimp only
    split_ifs
    · exact .pure fun h => by cases h
    · refine .bind (p.wrongAmong_count _ _ _) fun ⟨wrong, n⟩ hn => ?_
      cases wrong with
      | some j => exact .pure fun h => by cases h
      | none =>
        rw [List.length_range] at hn
        obtain rfl : n = 2 * s.params.length := hn rfl
        refine (iterate_spends p solver settings.tolerance settings.budget _).imp fun b hb _ => ?_
        simpa [Progress.counted] using hb
  · rw [Bool.eq_false_iff.2 hv]
    exact (iterate_spends p solver settings.tolerance settings.budget s).imp fun b hb _ => hb

/-- A report that is no failure spends the budget after the initial residuals and the comparison of
the first Jacobian. -/
theorem solve_spends (settings : Settings α) {initial : List α}
    (hb : settings.budget ≠ 0) (hn : p.parameterCount ≠ 0) :
    Ensures (p.solve solver settings initial) fun report => report.ending.isFailure = false →
      1 + 2 * p.parameterCount * settings.verify.toNat ≤ report.residualCalls ∧
      report.residualCalls ≤
        1 + 2 * p.parameterCount * settings.verify.toNat + maxTrials * settings.budget ∧
      1 + settings.verify.toNat ≤ report.jacobianCalls ∧
      report.jacobianCalls ≤ settings.budget + settings.verify.toNat := by
  rw [solve_eq_fresh]
  unfold solveFresh
  split_ifs with hl hz
  · exact fun s report t h => by cases h
  · exact absurd hz (not_or.2 ⟨hb, hn⟩)
  · rw [ne_eq, not_not] at hl
    refine .bind (.trivial _) fun residuals _ => ?_
    split_ifs
    · exact .pure fun h => by cases h
    · refine .bind (run_spends p solver settings (.start initial residuals settings.damping))
        fun b hspends => .pure fun h => ?_
      obtain ⟨hge, hle, hge', hle'⟩ := hspends h
      dsimp only [Progress.counted, Progress.start] at hge hle hge' hle'
      rw [hl] at hge hle
      dsimp only [Progress.report]
      refine ⟨hge, hle, ?_, ?_⟩
      · omega
      · omega

theorem solve_zero_calls (settings : Settings α) {initial : List α} (hb : settings.budget = 0) :
    Ensures (p.solve solver settings initial) fun report =>
      report.residualCalls = 0 ∧ report.jacobianCalls = 0 := by
  rw [solve_eq_fresh]
  unfold solveFresh
  split_ifs with hl hz
  · exact fun s report t h => by cases h
  · exact .pure ⟨rfl, rfl⟩
  · exact absurd (.inl hb) hz

end Budget

section Calls

def Call.isResiduals : Call α → Bool
  | residuals _ => true
  | jacobian _ => false

def Call.isJacobian : Call α → Bool
  | residuals _ => false
  | jacobian _ => true

/-- The calls in a log. -/
def logMeter (σ α : Type) : Meter (σ × List (Call α)) where
  residuals s := s.2.countP Call.isResiduals
  jacobians s := s.2.countP Call.isJacobian
  charge := 1

theorem logged_charges (p : LeastSquares σ α) : p.logged.Charges (logMeter σ α) where
  residuals c i j := by
    rintro ⟨s, log⟩ ⟨hi, hj⟩
    rcases hs : p.residuals c s with ⟨_ | out, s'⟩
    · simp only [logged, hs]
    · simp only [logMeter, Nat.mul_one] at hi hj
      simp [logged, hs, Meter.Shows, logMeter, hi, hj, Call.isResiduals, Call.isJacobian]
  jacobian c i j := by
    rintro ⟨s, log⟩ ⟨hi, hj⟩
    rcases hs : p.jacobian c s with ⟨_ | out, s'⟩
    · simp only [logged, hs]
    · simp only [logMeter, Nat.mul_one] at hi hj
      simp [logged, hs, Meter.Shows, logMeter, hi, hj, Call.isResiduals, Call.isJacobian]

/-- The counts that a run reports are those of the calls it makes. -/
theorem exists_calls [Scalar α] {p : LeastSquares σ α} {solver : LinearSolver α}
    {settings : Settings α} {initial : List α} {s t : σ} {report : Report α}
    (h : p.solve solver settings initial s = (.ok report, t)) :
    ∃ calls, p.logged.solve solver settings initial (s, []) = (.ok report, t, calls) ∧
      calls.countP Call.isResiduals = report.residualCalls ∧
      calls.countP Call.isJacobian = report.jacobianCalls := by
  have hplain := p.logged_forgets.solve forgets_congruence solver settings initial
    (fun _ => .throw _) s []
  have hcounts := p.logged_charges.solve solver settings initial (s, []) ⟨rfl, rfl⟩
  rw [h] at hplain
  rcases hlogged : p.logged.solve solver settings initial (s, []) with ⟨result, t', calls⟩
  rw [hlogged] at hplain hcounts
  cases hplain
  refine ⟨calls, rfl, ?_, ?_⟩
  · exact hcounts.1.trans (Nat.mul_one _)
  · exact hcounts.2.trans (Nat.mul_one _)

end Calls

end LeastSquares

namespace RowModel

open LeastSquares

/-- The evaluations on single rows. -/
def tallyMeter (σ : Type) (rows : Nat) : Meter (σ × Tally) where
  residuals s := s.2.values
  jacobians s := s.2.gradients
  charge := rows

/-- An evaluation on a row leaves the meters to the pass it belongs to. -/
theorem onRow_keeps (x : StateM σ β) (rows i j : Nat) {E : σ × Tally → Prop} :
    Triple ((tallyMeter σ rows).Shows i j) (onRow x) (fun _ => (tallyMeter σ rows).Shows i j) E :=
  fun _ h => h

variable [Scalar α] (model : RowModel σ α) (x : DesignMatrix α) (y : List α)

theorem valuePass_charges (params : List α) (i j : Nat) :
    Triple ((tallyMeter σ y.length).Shows i j) (model.valuePass x y params)
      (fun _ => (tallyMeter σ y.length).Shows (i + 1) j) fun _ => True := by
  refine .bind (.mapM (fun p => ?_) _) fun rs => ?_
  · exact .bind (onRow_keeps _ _ i j) fun v => .pure fun _ h => h
  · refine .bind (R := fun _ => (tallyMeter σ y.length).Shows (i + 1) j) ?_
      fun _ => .pure fun _ h => h
    rintro ⟨s, tally⟩ ⟨hi, hj⟩
    refine ⟨?_, hj⟩
    rw [Nat.succ_mul, ← hi]
    rfl

omit [Scalar α] in
theorem gradientPass_charges (params : List α) (i j : Nat) :
    Triple ((tallyMeter σ y.length).Shows i j) (model.gradientPass x y params)
      (fun _ => (tallyMeter σ y.length).Shows i (j + 1)) fun _ => True := by
  refine .bind (.mapM (fun p => ?_) _) fun rows => ?_
  · exact .bind (onRow_keeps _ _ i j) fun r => .pure fun _ h => h
  · refine .bind (R := fun _ => (tallyMeter σ y.length).Shows i (j + 1)) ?_
      fun _ => .pure fun _ h => h
    rintro ⟨s, tally⟩ ⟨hi, hj⟩
    refine ⟨hi, ?_⟩
    rw [Nat.succ_mul, ← hj]
    rfl

theorem problem_charges (cancelled : σ → Bool) :
    (model.problem x y cancelled).Charges (tallyMeter σ y.length) where
  residuals params i j := by
    intro s hs
    rw [residuals_apply]
    split_ifs
    · trivial
    · exact model.valuePass_charges x y params i j s hs
  jacobian params i j := by
    intro s hs
    rw [jacobian_apply]
    split_ifs
    · trivial
    · exact model.gradientPass_charges x y params i j s hs

variable {model x y} {solver : LinearSolver α} {initial params : List α} {budget : Nat}
  {verify : Bool} {cancelled : σ → Bool} {passes : PassCounts} {s : σ}

/-- A fit that succeeds reports the passes its run made: the calls for residuals and for Jacobians
that the run counted, and one evaluation on each row in each of them. Without iterations there are
none. In at most `budget` iterations there is one Jacobian for each and at least one, one for the
comparison if it is asked for, the initial residuals, two for each parameter that is compared, and
ten trials for each iteration. -/
theorem fit_counts
    (h : (model.fit solver x y initial budget verify cancelled s).1 = .ok (.fitted params passes)) :
    ∃ report t tally calls,
      (model.problem x y cancelled).solve solver { budget, verify } initial (s, {}) =
        (.ok report, t, tally) ∧
      (model.problem x y cancelled).logged.solve solver { budget, verify } initial
        ((s, {}), []) = (.ok report, (t, tally), calls) ∧
      passes.values = report.residualCalls ∧ passes.gradients = report.jacobianCalls ∧
      calls.countP Call.isResiduals = passes.values ∧
      calls.countP Call.isJacobian = passes.gradients ∧
      tally.values = passes.values * y.length ∧ tally.gradients = passes.gradients * y.length ∧
      (budget = 0 → passes.values = 0 ∧ passes.gradients = 0) ∧
      (1 ≤ budget →
        1 + verify.toNat ≤ passes.gradients ∧ passes.gradients ≤ budget + verify.toNat ∧
        1 + 2 * model.parameterCount * verify.toNat ≤ passes.values ∧
        passes.values ≤ 1 + 2 * model.parameterCount * verify.toNat + 10 * budget) := by
  obtain ⟨report, t, tally, hc, hsolve, hending, -, rfl⟩ := run_of_fit h
  have hn := (check_ok hc).1
  have hrows := rows_of_check hc
  have htally := (model.problem_charges x y cancelled).solve solver { budget, verify } initial
    (s, {}) ⟨(Nat.zero_mul _).symm, (Nat.zero_mul _).symm⟩
  rw [hsolve] at htally
  obtain ⟨hvalues, hgradients⟩ := htally
  dsimp only [tallyMeter] at hvalues hgradients
  obtain ⟨calls, hlogged, hresiduals, hjacobians⟩ := exists_calls hsolve
  have hmax : max y.length 1 = y.length := by omega
  have hpasses : PassCounts.ofEvaluations tally.values tally.gradients y.length =
      ⟨report.residualCalls, report.jacobianCalls⟩ := by
    have hpos : 0 < y.length := by omega
    rw [PassCounts.ofEvaluations, hmax, hvalues, hgradients, Nat.mul_div_cancel _ hpos,
      Nat.mul_div_cancel _ hpos]
  rw [hpasses]
  refine ⟨report, t, tally, calls, hsolve, hlogged, rfl, rfl, hresiduals, hjacobians, hvalues,
    hgradients, fun hb => ?_, fun hb => ?_⟩
  · exact solve_zero_calls _ solver { budget, verify } hb _ _ _ hsolve
  · obtain ⟨hge, hle, hge', hle'⟩ := solve_spends _ solver { budget, verify }
      (Nat.one_le_iff_ne_zero.1 hb) hn _ _ _ hsolve hending
    exact ⟨hge', hle', hge, hle⟩

def Outcome.isFitted : Outcome α → Bool
  | fitted _ _ => true
  | failed _ => false

/-- The line `w x`. -/
def ray : RowModel Unit Float where
  parameterCount := 1
  value params inputs := pure (params.getD 0 0 * inputs.getD 0 0)
  differentiate params inputs := pure (params.getD 0 0 * inputs.getD 0 0, inputs)

theorem fit_counts_ray : ∃ params passes report t tally calls,
    (ray.fit .orthogonal ⟨#[1, 2], 2, 1⟩ [1, 3] [0] 3 true (fun _ => false) ()).1 =
      .ok (.fitted params passes) ∧
    (ray.problem ⟨#[1, 2], 2, 1⟩ [1, 3] fun _ => false).logged.solve .orthogonal
      { budget := 3, verify := true } [0] (((), {}), []) = (.ok report, (t, tally), calls) ∧
    passes.values = report.residualCalls ∧ calls.countP Call.isResiduals = passes.values ∧
    tally.values = passes.values * 2 ∧
    2 ≤ passes.gradients ∧ passes.gradients ≤ 4 ∧ 3 ≤ passes.values ∧ passes.values ≤ 33 := by
  obtain ⟨⟨params, passes⟩ | reason, h, hfitted⟩ := exists_ok_of_any (p := Outcome.isFitted)
    (x := (ray.fit .orthogonal ⟨#[1, 2], 2, 1⟩ [1, 3] [0] 3 true (fun _ => false) ()).1)
    (by decide +kernel)
  swap
  · cases hfitted
  obtain ⟨report, t, tally, calls, -, hlogged, hvalues, -, hcalls, -, htally, -, -, hbounds⟩ :=
    fit_counts h
  exact ⟨params, passes, report, t, tally, calls, h, hlogged, hvalues, hcalls, htally,
    hbounds (by decide)⟩

end RowModel

end SymbolicFit
