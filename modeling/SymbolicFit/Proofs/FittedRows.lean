import Mathlib
import SymbolicFit.RowModel
import SymbolicFit.Proofs.CoherentRun
import SymbolicFit.Proofs.TapeValues

/-!
What a fit of a model to rows returns: the initial parameters, or parameters that lower the squared
residuals. The memory that rows are evaluated in plays no part.
-/

namespace SymbolicFit

variable {σ α β γ : Type}

namespace Fitting

/-- The computation returns nothing but this value. -/
def Returns (x : Fitting σ β) (b : β) : Prop :=
  Triple (fun _ => True) x (fun c _ => c = b) (fun _ => True)

namespace Returns

theorem pure (b : β) : Returns (Pure.pure b : Fitting σ β) b := Triple.pure fun _ _ => rfl

theorem bind {x : Fitting σ β} {f : β → Fitting σ γ} {b : β} {c : γ} (hx : Returns x b)
    (hf : Returns (f b) c) : Returns (x >>= f) c :=
  Triple.bind hx fun _ s hb => hb ▸ hf s trivial

theorem unit (x : Fitting σ Unit) : Returns x () := by
  intro s _
  rcases x s with ⟨_ | _, _⟩
  · trivial
  · rfl

theorem mapM {f : β → Fitting σ γ} {g : β → γ} (h : ∀ b, Returns (f b) (g b)) (bs : List β) :
    Returns (bs.mapM f) (bs.map g) := by
  induction bs with
  | nil => exact pure []
  | cons b bs ih =>
    rw [List.mapM_cons, List.map_cons]
    exact (h b).bind (ih.bind (pure _))

theorem eq {x : Fitting σ β} {b c : β} {s s' : σ} (h : Returns x b) (hx : x s = (.ok c, s')) :
    c = b := by
  have ht := h s trivial
  rwa [hx] at ht

end Returns

end Fitting

open Fitting (Returns)

variable [Scalar α]

namespace LeastSquares

variable {p : LeastSquares σ α} {solver : LinearSolver α} {settings : Settings α}
  {initial : List α} {s s' : σ} {report : Report α}

theorem sound_of_solve [IsTrans α (· < ·)] {r : List α → List α} {J : List α → List (List α)}
    (hp : p.Computes r J) (hb : settings.budget ≠ 0) (hn : p.parameterCount ≠ 0)
    (h : p.solve solver settings initial s = (.ok report, s')) : report.Sound r initial := by
  have hf := forgets_solve p solver settings initial s []
  have ht := @triple_solve _ _ _ p r J initial _ hp solver settings hb hn (s, []) trivial
  rw [h] at hf
  rcases hr : p.solveRecorded solver settings initial (s, []) with ⟨outcome, state⟩
  rw [hr] at hf ht
  obtain rfl : outcome = .ok report := congrArg Prod.fst hf
  exact ht.1

theorem params_of_solve_zero (hb : settings.budget = 0)
    (h : p.solve solver settings initial s = (.ok report, s')) : report.params = initial := by
  unfold solve at h
  split_ifs at h with hl hz
  · cases h
  · cases h
    rfl
  · exact absurd (Or.inl hb) hz

end LeastSquares

namespace RowModel

/-- The state decides neither the values nor the derivatives. -/
structure Computes (model : RowModel σ α) (f : List α → List α → α)
    (g : List α → List α → α × List α) : Prop where
  value : ∀ params inputs s, (model.value params inputs s).1 = f params inputs
  differentiate : ∀ params inputs s, (model.differentiate params inputs s).1 = g params inputs

/-- The estimates on all rows minus the observed values. -/
def residualsOf (f : List α → List α → α) (x : DesignMatrix α) (y params : List α) : List α :=
  y.zipIdx.map fun p => f params (x.row p.2) - p.1

def jacobianOf (g : List α → List α → α × List α) (x : DesignMatrix α) (y params : List α) :
    List (List α) := (List.range y.length).map fun i => (g params (x.row i)).2

variable {model : RowModel σ α} {f : List α → List α → α} {g : List α → List α → α × List α}
  {solver : LinearSolver α} {x : DesignMatrix α} {y initial params : List α} {budget : Nat}
  {verify : Bool} {cancelled : σ → Bool} {passes : PassCounts} {s : σ}

omit [Scalar α] in
theorem returns_onRow {x : StateM σ β} {b : β} (h : ∀ s, (x s).1 = b) : Returns (onRow x) b :=
  fun s _ => h s.1

theorem problem_computes (h : model.Computes f g) :
    (model.problem x y cancelled).Computes (residualsOf f x y) (jacobianOf g x y) where
  residuals params s out s' hout := by
    have hr : Returns ((model.problem x y cancelled).residuals params)
        (residualsOf f x y params) := by
      refine (Returns.unit _).bind ((Returns.mapM (fun p => ?_) _).bind ((Returns.unit _).bind
        (.pure _)))
      exact (returns_onRow (h.value params _)).bind (.pure _)
    exact hr.eq hout
  jacobian params s out s' hout := by
    have hr : Returns ((model.problem x y cancelled).jacobian params)
        (jacobianOf g x y params) := by
      refine (Returns.unit _).bind ((Returns.mapM (fun i => ?_) _).bind ((Returns.unit _).bind
        (.pure _)))
      exact (returns_onRow (h.differentiate params _)).bind (.pure _)
    exact hr.eq hout

omit [Scalar α] in
theorem check_ok (h : model.check x y initial = .ok ()) :
    model.parameterCount ≠ 0 ∧ initial.length = model.parameterCount := by
  unfold check at h
  split_ifs at h with hn hl
  exact ⟨hn, not_not.1 hl⟩

omit [Scalar α] in
theorem rows_of_check (hc : model.check x y initial = .ok ()) : y.length ≠ 0 := by
  unfold check at hc
  split_ifs at hc with hn hl he
  simpa using he

/-- What a fit returns when its run reports. -/
def Outcome.ofReport (report : LeastSquares.Report α) (tally : Tally) (rows : Nat) : Outcome α :=
  if report.ending.isFailure then
    .failed (report.ending.name ++ s!" after {report.iterations} iterations")
  else .fitted report.params (.ofEvaluations tally.values tally.gradients rows)

/-- A raised token is seen before anything is evaluated. -/
theorem fit_cancelled (hc : model.check x y initial = .ok ()) (hs : cancelled s = true) :
    model.fit solver x y initial budget verify cancelled s = (.error .cancelled, s) := by
  unfold fit
  rw [Fitting.bind_apply, hc]
  change (if cancelled s then _ else _ : Fitting σ (Outcome α)) s = _
  rw [if_pos hs]
  rfl

/-- A fit whose token is not raised is a run of its problem from an empty tally. -/
theorem fit_started (hc : model.check x y initial = .ok ()) (hs : cancelled s = false)
    {result : Except Failure (LeastSquares.Report α)} {s' : σ} {tally : Tally}
    (h : (model.problem x y cancelled).solve solver { budget, verify } initial (s, {}) =
      (result, s', tally)) :
    model.fit solver x y initial budget verify cancelled s =
      (result.map fun report => .ofReport report tally y.length, s') := by
  unfold fit
  rw [Fitting.bind_apply, hc]
  change (if cancelled s then _ else _ : Fitting σ (Outcome α)) s = _
  rw [hs, if_neg Bool.false_ne_true, Fitting.bind_apply]
  unfold fit.tallied
  rw [h]
  cases result with
  | error e => rfl
  | ok report =>
    dsimp only [Except.map]
    unfold Outcome.ofReport
    split_ifs
    · rfl
    · rfl

/-- A fit that succeeds returns the parameters and the passes of a run that did not fail. -/
theorem run_of_fit
    (h : (model.fit solver x y initial budget verify cancelled s).1 = .ok (.fitted params passes)) :
    ∃ report s' tally, model.check x y initial = .ok () ∧
      (model.problem x y cancelled).solve solver { budget, verify } initial (s, {}) =
        (.ok report, s', tally) ∧
      report.ending.isFailure = false ∧ report.params = params ∧
      .ofEvaluations tally.values tally.gradients y.length = passes := by
  cases hc : model.check x y initial with
  | error e =>
    unfold fit at h
    rw [Fitting.bind_apply, hc] at h
    cases h
  | ok u =>
    cases hs : cancelled s with
    | true =>
      rw [fit_cancelled hc hs] at h
      cases h
    | false =>
      rcases hsolve : (model.problem x y cancelled).solve solver { budget, verify } initial
        (s, {}) with ⟨_ | report, s', tally⟩
      · rw [fit_started hc hs hsolve] at h
        cases h
      · rw [fit_started hc hs hsolve] at h
        dsimp only [Except.map] at h
        unfold Outcome.ofReport at h
        split_ifs at h with he
        · cases h
        · cases h
          exact ⟨report, s', tally, rfl, rfl, by simpa using he, rfl, rfl⟩

theorem solve_of_fit
    (h : (model.fit solver x y initial budget verify cancelled s).1 = .ok (.fitted params passes)) :
    ∃ report s', model.parameterCount ≠ 0 ∧
      (model.problem x y cancelled).solve solver { budget, verify } initial (s, {}) =
        (.ok report, s') ∧
      report.ending.isFailure = false ∧ report.params = params := by
  obtain ⟨report, s', tally, hc, hsolve, hending, hparams, -⟩ := run_of_fit h
  exact ⟨report, _, (check_ok hc).1, hsolve, hending, hparams⟩

theorem params_of_fit_zero (hb : budget = 0)
    (h : (model.fit solver x y initial budget verify cancelled s).1 = .ok (.fitted params passes)) :
    params = initial := by
  obtain ⟨report, s', -, hsolve, -, rfl⟩ := solve_of_fit h
  exact LeastSquares.params_of_solve_zero hb hsolve

/-- A fit keeps the initial parameters or lowers the cost. -/
theorem descends_of_fit [IsTrans α (· < ·)] (hm : model.Computes f g)
    (h : (model.fit solver x y initial budget verify cancelled s).1 = .ok (.fitted params passes)) :
    params = initial ∨ LeastSquares.costOf (residualsOf f x y params) <
      LeastSquares.costOf (residualsOf f x y initial) := by
  by_cases hb : budget = 0
  · exact .inl (params_of_fit_zero hb h)
  · obtain ⟨report, s', hn, hsolve, hending, rfl⟩ := solve_of_fit h
    have hs := LeastSquares.sound_of_solve (problem_computes hm) hb hn hsolve
    have hf : allFinite (residualsOf f x y initial) = true := by
      by_contra hf
      rw [(hs.nonFinite (by simpa using hf)).1] at hending
      cases hending
    exact (hs.descends hf).imp_right fun hlt => by rwa [hs.cost hf] at hlt

end RowModel

/-- The memory of a tape is written before it is read. -/
theorem CompiledTree.rowModel_computes (c : CompiledTree α) :
    c.rowModel.Computes (fun params inputs => (c.tape.evaluate params inputs .empty).1)
      (fun params inputs => (c.rowModel.differentiate params inputs .empty).1) where
  value params inputs s := by
    change (c.tape.evaluate params inputs s).1 = _
    unfold Tape.evaluate
    rw [Tape.forward_eq_pass, Tape.forward_eq_pass]
  differentiate params inputs s := by
    unfold rowModel
    dsimp only
    unfold Tape.differentiate
    rw [Tape.forward_eq_pass, Tape.forward_eq_pass]
    cases c.tape.output <;> rfl

end SymbolicFit
